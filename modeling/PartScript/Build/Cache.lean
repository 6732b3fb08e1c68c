/-
  The result cache: what the backend answered to each construction, successes and refusals
  alike, with counts of its use.
-/
import PartScript.Build.Backend

namespace PartScript

/-- Answers by the identities of the constructions, and the counts of looks that found an
entry, of looks that did not, and of invocations of the backend. -/
structure ResultCache where
  entries : Table StructuralHash BuildAnswer
  hits : Nat
  misses : Nat
  builds : Nat

namespace ResultCache

def empty : ResultCache := ⟨[], 0, 0, 0⟩

/-- Whether an answer is stored; counts nothing. -/
def contains (cache : ResultCache) (hash : StructuralHash) : Bool := cache.entries.contains hash

/-- The number of stored answers. -/
def size (cache : ResultCache) : Nat := cache.entries.length

/-- Looks for an answer and counts the look. -/
def lookup (cache : ResultCache) (hash : StructuralHash) : Option BuildAnswer × ResultCache :=
  match cache.entries.get? hash with
  | some entry => (some entry, { cache with hits := cache.hits + 1 })
  | none => (none, { cache with misses := cache.misses + 1 })

/-- Stores an answer. -/
def insert (cache : ResultCache) (hash : StructuralHash) (entry : BuildAnswer) : ResultCache :=
  { cache with entries := cache.entries.insert hash entry }

/-- Counts an invocation of the backend. -/
def countBuild (cache : ResultCache) : ResultCache := { cache with builds := cache.builds + 1 }

/-- The share of looks that found an entry, zero before the first look. -/
def hitRate (cache : ResultCache) : Float :=
  if cache.hits + cache.misses = 0 then 0.0
  else cache.hits.toFloat / (cache.hits + cache.misses).toFloat

end ResultCache

end PartScript
