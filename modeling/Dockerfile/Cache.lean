/-!
# A cache of recent results

Keeps the results of the last `capacity` keys that were asked for. A key that is found moves to the
front; a new key pushes out the one that was not asked for the longest time. Hits and misses are
counted. With capacity 0 nothing is kept.
-/

namespace Dockerfile

/-- Results by key, the most recent first. -/
structure RecentCache (κ : Type) (ν : Type) where
  capacity : Nat
  entries : List (κ × ν)
  hits : Nat
  misses : Nat

namespace RecentCache

variable {κ ν : Type} [BEq κ]

/-- Nothing kept and nothing counted. -/
def empty (capacity : Nat) : RecentCache κ ν := ⟨capacity, [], 0, 0⟩

/-- How many results are kept. -/
def size (c : RecentCache κ ν) : Nat := c.entries.length

/-- The result for a key, computed if it is not kept, and the cache afterwards. -/
def fetch (c : RecentCache κ ν) (compute : κ → ν) (key : κ) : ν × RecentCache κ ν :=
  match c.entries.lookup key with
  | some result =>
    let others := c.entries.filter fun e => !(e.1 == key)
    (result, { c with entries := (key, result) :: others, hits := c.hits + 1 })
  | none =>
    let result := compute key
    let kept := ((key, result) :: c.entries).take c.capacity
    (result, { c with entries := kept, misses := c.misses + 1 })

end RecentCache

end Dockerfile
