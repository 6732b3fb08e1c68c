/-
  Numbers of sub-shapes. An identity determines the type of a construction and the identities
  that its arguments refer to; so whatever the backend has shown for one identity has the same
  number of sub-shapes, at itself and down every path of sub-results, in every session.
-/
import PartScript.Proofs.Sharing
import PartScript.Proofs.Sources

namespace PartScript

/-! ## Counts along paths -/

namespace BuildResult

variable {r r' shape shape' : BuildResult} {path : List String}

/-- The number of sub-shapes of what is found down a path of sub-results. -/
def counts? (r : BuildResult) : List String → Option EntityCounts
  | [] => r.shape.symbolic?.map (·.counts)
  | name :: path => (r.sub? name).bind fun sub => sub.counts? path

/-- Two results have the same numbers of sub-shapes down every path. -/
def SameCounts (r r' : BuildResult) : Prop := ∀ path, r.counts? path = r'.counts? path

theorem counts?_congr (hshape : r'.shape = r.shape) (hsubs : r'.subs = r.subs)
    (path : List String) : r'.counts? path = r.counts? path := by
  cases path with
  | nil => rw [counts?, counts?, hshape]
  | cons name path => rw [counts?, counts?, sub?, sub?, hsubs]

theorem counts?_serial (r : BuildResult) (serial : Nat) (path : List String) :
    { r with serial := serial }.counts? path = r.counts? path := by
  refine counts?_congr ?_ ?_ path <;> rfl

theorem counts?_withSub (r : BuildResult) (name : String) (sub : BuildResult) (other : String)
    (path : List String) : (r.withSub name sub).counts? (other :: path) =
      if name = other then sub.counts? path else r.counts? (other :: path) := by
  rw [counts?, counts?, sub?, withSub, Table.get?_insert]
  split <;> rfl

theorem SameCounts.withSub (h : r.SameCounts r') {sub sub' : BuildResult}
    (hsub : sub.SameCounts sub') (name : String) :
    (r.withSub name sub).SameCounts (r'.withSub name sub') := by
  intro path
  cases path with
  | nil => exact h []
  | cons other path =>
    rw [counts?_withSub, counts?_withSub, hsub path, h (other :: path)]

theorem counts?_descend {owner : String} (h : r.descend owner path = .ok shape)
    (more : List String) : r.counts? (path ++ more) = shape.counts? more := by
  induction path generalizing r owner with
  | nil =>
    cases h
    rfl
  | cons name path ih =>
    rw [descend] at h
    split at h
    · next sub hsub =>
      rw [List.cons_append, counts?, hsub]
      exact ih h
    · cases h

/-- What is found down one path has the same counts as well. -/
theorem SameCounts.descend {owner owner' : String} (h : r.SameCounts r')
    (hr : r.descend owner path = .ok shape) (hr' : r'.descend owner' path = .ok shape') :
    shape.SameCounts shape' := by
  intro more
  rw [← counts?_descend hr, ← counts?_descend hr', h]

end BuildResult

/-- Inputs that bring shapes with the same counts, or none. -/
inductive Input.SameCounts : Input → Input → Prop where
  | shape {r r' : BuildResult} : r.SameCounts r' → SameCounts (.shape r) (.shape r')
  | selection {t t' : Selection} : t.shape.SameCounts t'.shape →
      SameCounts (.selection t) (.selection t')
  | plain {x y : Input} : x.shape? = none → y.shape? = none → SameCounts x y

/-! ## Counts of what the symbolic backend builds -/

namespace Symbolic

variable {failing : List String} {request request' : BuildRequest} {r r' : BuildResult}
  {x y : Input}

/-- An input without a shape adds neither sub-shapes nor sub-results. -/
theorem counts?_addInput (hx : x.shape? = none) (r : BuildResult) (name : String)
    (path : List String) : (addInput r (name, x)).counts? path = r.counts? path := by
  cases x with
  | shape _ => cases hx
  | _ => refine BuildResult.counts?_congr ?_ ?_ path <;> rfl

theorem addInput_sameCounts (h : r.SameCounts r') (name : String) (hx : x.SameCounts y) :
    (addInput r (name, x)).SameCounts (addInput r' (name, y)) := by
  cases hx with
  | shape hsub => exact h.withSub hsub name
  | selection _ => exact h
  | plain hx hy =>
    intro path
    rw [counts?_addInput hx, counts?_addInput hy, h path]

theorem inputCounts?_eq (h : x.SameCounts y) : inputCounts? x = inputCounts? y := by
  have hplain : ∀ {x : Input}, x.shape? = none → inputCounts? x = none := by
    intro x hx
    cases x with
    | shape _ => cases hx
    | selection _ => cases hx
    | _ => rfl
  cases h with
  | shape h => exact h []
  | selection h => exact h []
  | plain hx hy => rw [hplain hx, hplain hy]

theorem entityCounts_eq {xs ys : List Input} (h : List.Forall₂ Input.SameCounts xs ys)
    (typeName : String) : entityCounts typeName xs = entityCounts typeName ys := by
  have hcounts : xs.filterMap inputCounts? = ys.filterMap inputCounts? := by
    induction h with
    | nil => rfl
    | cons hx _ ih => rw [List.filterMap_cons, List.filterMap_cons, inputCounts?_eq hx, ih]
  unfold entityCounts
  rw [hcounts]

theorem foldl_sameCounts {xs ys : List Input} (h : List.Forall₂ Input.SameCounts xs ys)
    (names : Nat → String) (hr : r.SameCounts r') :
    ((xs.mapIdx fun i x => (names i, x)).foldl addInput r).SameCounts
      ((ys.mapIdx fun i x => (names i, x)).foldl addInput r') := by
  induction h generalizing names r r' with
  | nil => exact hr
  | cons hx _ ih =>
    rw [List.mapIdx_cons, List.mapIdx_cons, List.foldl_cons, List.foldl_cons]
    exact ih (fun i => names (i + 1)) (addInput_sameCounts hr (names 0) hx)

theorem eq_of_build (h : build failing request = .ok r) :
    r = request.namedInputs.foldl addInput (.ofShape (.symbolic (shape request))) := by
  unfold build at h
  split at h
  · cases h
  · obtain ⟨_, -, h⟩ := ok_of_bind h
    exact (Except.ok.inj h).symm

/-- Requests of one type and signature with inputs of the same counts give results of the same
counts. -/
theorem build_sameCounts (htype : request.typeName = request'.typeName)
    (hsignature : request.signature = request'.signature)
    (hinputs : List.Forall₂ Input.SameCounts request.inputs request'.inputs)
    (h : build failing request = .ok r) (h' : build failing request' = .ok r') :
    r.SameCounts r' := by
  rw [eq_of_build h, eq_of_build h', BuildRequest.namedInputs, BuildRequest.namedInputs,
    hsignature]
  refine foldl_sameCounts hinputs _ fun path => ?_
  cases path with
  | nil =>
    show some (shape request).counts = some (shape request').counts
    rw [shape, shape, htype, entityCounts_eq hinputs]
  | cons name path => rfl

end Symbolic

/-! ## Counts of what has been shown -/

/-- Arguments with one encoding bring inputs with the same counts, if shapes for the identity
that they refer to have the same counts. -/
theorem ResolvedArgument.Fits.sameCounts {a a' : ResolvedArgument} {x x' : Input}
    (hsame : a.Same a') (hx : a.Fits x) (hx' : a'.Fits x')
    (hshapes : ∀ k shape shape', a.ref? = some k → a'.ref? = some k → x.shape? = some shape →
      x'.shape? = some shape' → shape.SameCounts shape') : x.SameCounts x' := by
  cases hsame with
  | feature heq =>
    cases hx
    cases hx'
    exact .shape (hshapes _ _ _ rfl (congrArg some heq.symm) rfl rfl)
  | selection ht =>
    cases hx
    cases hx'
    exact .selection (hshapes _ _ _ rfl (congrArg some ht.source.symm) rfl rfl)
  | _ =>
    cases hx
    cases hx'
    exact .plain rfl rfl

theorem ResolvedArgument.fits_sameCounts {args args' : List ResolvedArgument}
    {ins ins' : List Input} (hsame : List.Forall₂ ResolvedArgument.Same args args')
    (hins : List.Forall₂ ResolvedArgument.Fits args ins)
    (hins' : List.Forall₂ ResolvedArgument.Fits args' ins')
    (hshapes : ∀ (j : Nat) a a' x x' k shape shape', args[j]? = some a → args'[j]? = some a' →
      ins[j]? = some x → ins'[j]? = some x' → a.ref? = some k → a'.ref? = some k →
      x.shape? = some shape → x'.shape? = some shape' → shape.SameCounts shape') :
    List.Forall₂ Input.SameCounts ins ins' := by
  induction hsame generalizing ins ins' with
  | nil =>
    cases hins
    cases hins'
    exact .nil
  | cons ha _ ih =>
    cases hins with
    | cons hx hins =>
      cases hins' with
      | cons hx' hins' =>
        refine .cons (hx.sameCounts ha hx' fun k shape shape' => ?_) (ih hins hins' fun j => ?_)
        · exact hshapes 0 _ _ _ _ k shape shape' rfl rfl rfl rfl
        · exact hshapes (j + 1)

namespace Backend.Shows

variable {failing : List String} {owned : Feature → Prop} {s : BuildState}

/-- Whatever is shown for one identity has the same counts, if no two streams have one digest,
and constructions of one type with the same number of arguments have one signature. -/
theorem sameCounts (hlegible : Description.Legible s.described)
    (hsignature : ∀ f g, owned f → owned g → f.typeName = g.typeName →
      f.arguments.length = g.arguments.length → f.signature = g.signature)
    {k : StructuralHash} {r r' : BuildResult} (h : (Symbolic.backend failing).Shows owned s k r)
    (h' : (Symbolic.backend failing).Shows owned s k r') : r.SameCounts r' := by
  -- The induction is on what the first result was built from.
  induction h generalizing r' with
  | @built i g args ins r hrequested _ hanswer ih =>
    generalize hk : (Description.feature g.typeName args).hash = k at h'
    cases h' with
    | @built i' g' args' ins' _ hrequested' hshapes' hanswer' =>
      have hstream := hlegible.distinct _ hrequested.described _ hrequested'.described hk
      obtain ⟨htype, hsame⟩ := Encoding.feature_stream_inj
        (hlegible.fits _ hrequested.described).texts
        (hlegible.fits _ hrequested'.described).texts hstream
      have hlength : g.arguments.length = g'.arguments.length := by
        rw [← hrequested.length, ← hrequested'.length, hsame.length_eq]
      have hinputs : List.Forall₂ Input.SameCounts ins ins' := by
        refine ResolvedArgument.fits_sameCounts hsame hrequested.inputs hrequested'.inputs ?_
        intro j a a' x x' k shape shape' ha ha' hx hx' hk hk' hshape hshape'
        exact ih j a x k shape ha hx hk hshape (hshapes' j a' x' k shape' ha' hx' hk' hshape')
      obtain ⟨t, ht, rfl⟩ := Backend.built_of_answerTo hanswer.symm
      obtain ⟨t', ht', rfl⟩ := Backend.built_of_answerTo hanswer'.symm
      have hbuilt := Symbolic.build_sameCounts htype
        (hsignature g g' hrequested.mem hrequested'.mem htype hlength) hinputs ht ht'
      intro path
      rw [BuildResult.counts?_serial, BuildResult.counts?_serial, hbuilt path]
    | @sub root _ _ path _ _ hd _ =>
      have hstream := hlegible.distinct _ hrequested.described _ hd hk
      exact absurd hstream (Encoding.feature_stream_ne_subResult _ _ _ _)
  | @sub root r owner path shape _ hd hdescend ih =>
    generalize hk : (Description.subResult root path).hash = k at h'
    cases h' with
    | @built i g args ins _ hrequested _ _ =>
      have hstream := hlegible.distinct _ hrequested.described _ hd hk.symm
      exact absurd hstream (Encoding.feature_stream_ne_subResult _ _ _ _)
    | @sub root' r' owner' path' shape' hr' hd' hdescend' =>
      have hstream := hlegible.distinct _ hd _ hd' hk
      obtain ⟨rfl, rfl⟩ := Encoding.subResult_stream_inj (hlegible.fits _ hd).texts
        (hlegible.fits _ hd').texts hstream
      exact (ih hr').descend hdescend hdescend'

end Backend.Shows

end PartScript
