/-
  Scripts that are loaded in pieces. What a statement binds depends on the text up to its semicolon
  and on the names bound before, so a script that is loaded after another adds what it adds when both
  are loaded as one text, a line feed between them. The one comment that has to be excluded is one
  that the end of the first script breaks: a line feed completes it, and hides what was read as
  statements before.
-/
import PartScript.Proofs.Longer
import PartScript.Proofs.Places
import PartScript.Proofs.Texts

namespace PartScript

open Grammar Grammar.Parser

/-! ## One statement -/

section Statements

variable {registry : Registry} {M M' X : Model} {s : Grammar.Statement} {c d c' : Cursor}
  {u ext : List Char}

/-- A statement is read up to a semicolon outside strings and comments. -/
theorem Grammar.statement_concludes (h : statement ⟨registry, M⟩ c = .ok s d) :
    concludes c.rest = true := by
  have hlawful : (Tandem.onward registry M M [] (concludes c.rest)).Lawful :=
    Tandem.onward_lawful (.inl rfl) (.refl _ M)
  have hpaired := Tandem.statement hlawful c c ⟨by simp, rfl, fun hne => absurd rfl hne⟩
  obtain ⟨_, _, -, -, hends, -⟩ := hpaired.of_ok h
  exact hends

/-! ## Texts of statements -/

theorem bare_bare (u : List Char) : bare (bare u) = bare u := by
  have hlength := Cursor.triviaLength_drop false u
  unfold bare
  rw [hlength, List.drop_zero]

theorem start_rest_of_bare (h : c.rest = bare u) : c.start.rest = bare u := by
  rw [start_rest, h, bare_bare]

/-- What stands in a text and what stands in a longer one, unless the end of the text breaks a
comment. -/
def Longer (ext : List Char) (c c' : Cursor) : Prop :=
  ∃ u, c.start.rest = bare u ∧ c'.start.rest = bare (u ++ ext) ∧ (ext ≠ [] → torn u = false)

/-- A statement of a text is a statement of a longer one. -/
theorem alongside_longer (hext : Continuation ext) : Alongside registry (Longer ext) := by
  rintro c c' M M' s d ⟨u, hc, hc', htorn⟩ hM hs
  have hends := statement_concludes hs
  have hbare : bare u ≠ [] := by
    intro hnil
    rw [hc, hnil] at hends
    cases hends
  have hnear : c'.start.rest = c.start.rest ++ ext := by
    rw [hc, hc', bare_append hext fun hne => ⟨hbare, htorn hne⟩]
  refine ⟨.onward registry M M' ext true, Tandem.onward_lawful hext hM, rfl, rfl, rfl,
    ⟨hnear, hends, fun hne => ⟨rfl, hc ▸ (bare_leads u).torn (htorn hne)⟩⟩, ?_⟩
  rintro d d' ⟨-, v, hd, hd', hv⟩
  exact ⟨v, start_rest_of_bare hd, start_rest_of_bare hd', hv⟩

/-- Where nothing is left of a text, the rest is left of a longer one. -/
theorem Longer.rest (h : Longer ext c c') (hext : Continuation ext) (hend : c.start.rest = []) :
    c'.start.rest = bare ext := by
  obtain ⟨u, hc, hc', htorn⟩ := h
  rw [hc]  at hend
  rw [hc']
  rcases hext with rfl | ⟨later, rfl⟩
  · rw [List.append_nil, hend]
    rfl
  · rw [bare_append_of_nil later hend (htorn (List.cons_ne_nil _ _))]
    rfl

end Statements

/-! ## Scripts -/

namespace Model

variable {registry : Registry} {M N X : Model} {source : String}

theorem Alike.nextSource {f : Origin → Origin} (h : M.Alike f N) : M.nextSource.Alike f N :=
  ⟨h.bindings, h.outputs, h.modules⟩

/-- A script consists of statements alone. -/
theorem readScript_eq_ok_iff : M.readScript registry source = .ok X ↔
    ∃ N, statementsFrom registry scriptName source (source.toList.length + 1) (.ofText source) M =
      .ok N ∧ N.nextSource = X := by
  have hread : ∀ last, leadingImports scriptName source = .ok ([], last) →
      M.readScript registry source = (do
        let extended ← statementsFrom registry scriptName source (last.rest.length + 1) last M
        return extended.nextSource) := by
    intro last hlast
    unfold readScript Model.read
    rw [hlast]
    rfl
  constructor
  · intro h
    obtain ⟨⟨imports, last⟩, himports, h'⟩ := ok_of_bind h
    cases imports with
    | cons declaration _ => cases h'
    | nil =>
      rw [hread last himports] at h
      obtain rfl := leadingImports_nil himports
      obtain ⟨N, hN, hX⟩ := ok_of_bind h
      exact ⟨N, hN, Except.ok.inj hX⟩
  · rintro ⟨N, hN, rfl⟩
    rw [hread _ (leadingImports_of_stops (statementsFrom_stops hN))]
    show (statementsFrom registry scriptName source (source.toList.length + 1) _ M >>= _) = _
    rw [hN]
    rfl

/-- A script that is loaded after another adds what it adds behind it in one text. -/
theorem readScript_append {first second : String} (htorn : torn first.toList = false)
    (hfirst : M.readScript registry first = .ok N) (hsecond : N.readScript registry second = .ok X) :
    ∃ X', M.readScript registry (first ++ "\n" ++ second) = .ok X' ∧
      X.Alike (fun _ => .made 0) X' := by
  obtain ⟨N, hN, rfl⟩ := readScript_eq_ok_iff.mp hfirst
  obtain ⟨X, hX, rfl⟩ := readScript_eq_ok_iff.mp hsecond
  let both := first ++ "\n" ++ second
  have hboth : both.toList = first.toList ++ '\n' :: second.toList := by simp [both]
  have hext : Continuation ('\n' :: second.toList) := .inr ⟨_, rfl⟩
  -- the statements of the first script, up to where the second one begins
  have hbegin : Longer ('\n' :: second.toList) (.ofText first) (.ofText both) :=
    ⟨first.toList, start_rest _, hboth ▸ start_rest _, fun _ => htorn⟩
  obtain ⟨m, d, d', N', hsplit, hm, hend, hlonger, hN'⟩ := (alongside_longer hext).statementsFrom
    hbegin (.refl _ M) (Nat.lt_succ_self _) (Nat.lt_succ_self _) hN scriptName both
  have hseam : d'.start.rest = bare second.toList := hlonger.rest hext hend
  -- the statements of the second one, which are the same at another place
  have hagain : Longer [] (.ofText second) d' :=
    ⟨second.toList, start_rest _, by rw [hseam, List.append_nil], fun hne => absurd rfl hne⟩
  obtain ⟨m', e, e', X', hsplit', -, hend', hlonger', hX'⟩ :=
    (alongside_longer (.inl rfl)).statementsFrom hagain hN'.nextSource (Nat.lt_succ_self _) hm hX
      scriptName both
  have hnothing : e'.start.rest = [] := hlonger'.rest (.inl rfl) hend'
  refine ⟨X'.nextSource, readScript_eq_ok_iff.mpr ⟨X', ?_, rfl⟩, ?_⟩
  · exact hsplit.trans (hsplit'.trans (statementsFrom_end hnothing))
  · exact ⟨hX'.bindings, hX'.outputs, hX'.modules⟩

end Model

/-! ## Sessions -/

namespace Workshop

variable {registry : Registry} {backend : Backend} {scope : CacheScope} {shop shop' : Workshop}
  {id : Nat} {source : String}

theorem loadScript_eq_ok_iff : shop.loadScript id source = (.ok (), shop') ↔
    ∃ M, (shop.session id).model.readScript shop.registry source = .ok M ∧
      shop' = shop.setModel id M := by
  unfold loadScript
  cases (shop.session id).model.readScript shop.registry source with
  | error e => exact ⟨fun h => (by cases (Prod.mk.inj h).1), fun ⟨_, h, _⟩ => (by cases h)⟩
  | ok M =>
    refine ⟨fun h => ⟨M, rfl, (Prod.mk.inj h).2.symm⟩, ?_⟩
    rintro ⟨N, hN, rfl⟩
    obtain rfl := Except.ok.inj hN
    rfl

theorem model_setModel (shop : Workshop) (id : Nat) (M : Model) :
    ((shop.setModel id M).session id).model = M := by
  rw [session_setModel, if_pos rfl]

/-- Two scripts one after the other, and both in one text. -/
theorem loadScript_joined {first second : String} {shop₁ shop₂ : Workshop}
    (htorn : torn first.toList = false) (hfirst : shop.loadScript id first = (.ok (), shop₁))
    (hsecond : shop₁.loadScript id second = (.ok (), shop₂)) :
    ∃ shop', shop.loadScript id (first ++ "\n" ++ second) = (.ok (), shop') ∧
      (shop₂.session id).model.Alike (fun _ => .made 0) (shop'.session id).model := by
  obtain ⟨M, hM, rfl⟩ := loadScript_eq_ok_iff.mp hfirst
  obtain ⟨N, hN, rfl⟩ := loadScript_eq_ok_iff.mp hsecond
  rw [model_setModel] at hN
  obtain ⟨N', hN', halike⟩ := Model.readScript_append htorn hM hN
  refine ⟨_, loadScript_eq_ok_iff.mpr ⟨N', hN', rfl⟩, ?_⟩
  rwa [model_setModel, model_setModel]

/-- A load leaves a session sound, and its backend and the place of its cache as they were. -/
theorem Sound.loadScript (h : shop.Sound id) (hload : shop.loadScript id source = (.ok (), shop')) :
    shop'.Sound id ∧ shop'.backend = shop.backend ∧ shop'.scope = shop.scope := by
  have hshop : (shop.load id (.script source)).2 = shop' := congrArg Prod.snd hload
  obtain ⟨M, -, rfl⟩ := loadScript_eq_ok_iff.mp hload
  exact ⟨hshop ▸ h.load (.script source), rfl, rfl⟩

/-- Loading in pieces is loading at once, in every session. Two scripts that are loaded one after the
other leave the same names, kinds, trees and output requests as both in one text, a line feed between
them, but for places, as long as no comment of the first script is broken by its end alone. So without
a cache the identities are the same. -/
theorem loadScript_append (registry : Registry) (backend : Backend) (scope : CacheScope) (id : Nat)
    (history : List Act) {first second : String} (htorn : torn first.toList = false)
    {shop₁ shop₂ : Workshop} :
    let shop := (Workshop.acts id history (create registry backend scope)).2
    shop.loadScript id first = (.ok (), shop₁) → shop₁.loadScript id second = (.ok (), shop₂) →
    ∃ shop', shop.loadScript id (first ++ "\n" ++ second) = (.ok (), shop') ∧
      (shop₂.session id).model.Alike (fun _ => .made 0) (shop'.session id).model ∧
      (backend.Blind → scope = .disabled → ∀ name hash,
        (shop₂.ask id 0 fun ev => ev.hashNamed name).1 = .ok hash ↔
          (shop'.ask id 0 fun ev => ev.hashNamed name).1 = .ok hash) := by
  intro shop hfirst hsecond
  obtain ⟨shop', hboth, halike⟩ := loadScript_joined htorn hfirst hsecond
  refine ⟨shop', hboth, halike, fun hblind hnever name hash => ?_⟩
  have hscope : shop.scope = scope := (acts_setup history).2
  have hbackend : shop.backend = backend := (acts_setup history).1
  have hsound : shop.Sound id := by
    refine (create_sound registry backend scope id).acts hblind history fun hc => ?_
    simp [caching, create, hnever] at hc
  obtain ⟨hsound₁, hbackend₁, hscope₁⟩ := hsound.loadScript hfirst
  obtain ⟨hsound₂, hbackend₂, hscope₂⟩ := hsound₁.loadScript hsecond
  obtain ⟨hsound', hbackend', hscope'⟩ := hsound.loadScript hboth
  have hnever₂ : shop₂.scope = .disabled := by rw [hscope₂, hscope₁, hscope, hnever]
  have hnever' : shop'.scope = .disabled := by rw [hscope', hscope, hnever]
  have hblind₂ : shop₂.backend.Blind := by rwa [hbackend₂, hbackend₁, hbackend]
  have hsame : shop'.backend = shop₂.backend := by rw [hbackend', hbackend₂, hbackend₁]
  have hquestion : (Query.named (.hash name)).Lasting := True.intro
  constructor
  · intro h
    obtain ⟨_, h', rfl⟩ := hsound₂.answers_alike hsound' halike hsame hblind₂ hnever₂ hnever'
      hquestion h
    exact h'
  · intro h
    obtain ⟨_, h', rfl⟩ := hsound'.answers_alike hsound₂ halike.symm hsame.symm (hsame ▸ hblind₂)
      hnever' hnever₂ hquestion h
    exact h'

/-- A script that ends in a comment, and one that uses its names. -/
theorem loadScript_append_comment :
    let first := "a = 1; // the first"
    let second := "b = Box([0, 0, 0], [a, a, a]);"
    let shop := create Catalog.registry (Symbolic.backend []) .disabled
    let pieces := ((shop.loadScript 0 first).2.loadScript 0 second).2
    ∃ whole, shop.loadScript 0 (first ++ "\n" ++ second) = (.ok (), whole) ∧
      (pieces.session 0).model.Alike (fun _ => .made 0) (whole.session 0).model ∧
      ∀ hash, (pieces.ask 0 0 fun ev => ev.hashNamed "b").1 = .ok hash ↔
        (whole.ask 0 0 fun ev => ev.hashNamed "b").1 = .ok hash := by
  intro first second shop pieces
  have htorn : torn first.toList = false := by decide +kernel
  have hfirst : (shop.loadScript 0 first).1 = .ok () := by decide +kernel
  have hsecond : ((shop.loadScript 0 first).2.loadScript 0 second).1 = .ok () := by decide +kernel
  obtain ⟨whole, hwhole, halike, hhash⟩ := loadScript_append Catalog.registry (Symbolic.backend [])
    .disabled 0 [] htorn (Prod.ext hfirst rfl) (Prod.ext hsecond rfl)
  exact ⟨whole, hwhole, halike, hhash (Symbolic.backend_blind []) rfl "b"⟩

/-- Where a carriage return at the end of the first script breaks a comment, what is read as a
statement then is part of the comment in one text. -/
theorem loadScript_append_torn :
    let first := "a = 1; // b = 2;\r"
    let second := "c = 3;"
    let shop := create Catalog.registry (Symbolic.backend []) .session
    let pieces := ((shop.loadScript 0 first).2.loadScript 0 second).2
    let whole := (shop.loadScript 0 (first ++ "\n" ++ second)).2
    (shop.loadScript 0 first).1.isOk ∧ ((shop.loadScript 0 first).2.loadScript 0 second).1.isOk ∧
      (shop.loadScript 0 (first ++ "\n" ++ second)).1.isOk ∧
      (pieces.session 0).model.bindings.map (·.name) = ["a", "b", "c"] ∧
      (whole.session 0).model.bindings.map (·.name) = ["a", "c"] := by
  decide +kernel

end Workshop

end PartScript
