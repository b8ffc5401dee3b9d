import Mathlib.Data.Nat.Find
import Dockerfile.Hover
import Dockerfile.Proofs.Document.Instructions
import Dockerfile.Proofs.Instruction.Words
import Dockerfile.Proofs.Variable.Names

/-!
# The steps of a hover

Four things can stand at a place, and they are tried in a fixed order: the key of a directive, a
keyword, the name in a declaration of `ARG`, a reference. `Gives` says of each of them on its own
where it stands and what it shows, and `FirstAnswer` is the answer of the first one that is there.

Two words of an instruction never touch, and neither do two names that it declares. So each step
gives one answer, although the ends of all spans belong to them.

* `Gives.unique`, `FirstAnswer.unique` — there is one answer
* `exists_firstAnswer` — there is always one
-/

namespace Dockerfile

/-! ## The steps -/

/-- The first of the references at an offset, their ends included. -/
def FirstAt (rs : List ResolvedReference) (offset : Nat) (r : ResolvedReference) : Prop :=
  ∃ front back, rs = front ++ r :: back ∧ (r.start ≤ offset ∧ offset ≤ r.stop)
    ∧ ∀ q ∈ front, ¬(q.start ≤ offset ∧ offset ≤ q.stop)

namespace Document

/-- The references in the arguments of an instruction on a line. -/
def referencesIn (d : Document) (line : Nat) (i : Instruction) : List ResolvedReference :=
  d.table.references d.escape.text line i.toCommand

/-- The declarations that an instruction on a line makes. -/
def declarationsOf (d : Document) (line : Nat) (i : Instruction) : List Declaration :=
  Declaration.ofCommand i.toCommand line (d.table.stageOf line)

/-- What each step answers at an offset of an entry, if it applies there. All spans include their
ends. -/
inductive Gives (provider : Provider) (d : Document) (e : Entry) (offset : Nat) :
    Nat → Option (List Char) → Prop
  /-- The key of a directive: the documentation of `escape`. -/
  | escapeKey {x : Directive} (hnode : e.node = .directive x)
    (hkey : x.keyStart ≤ offset ∧ offset ≤ x.keyEnd) :
    Gives provider d e offset 1 (provider .escape)
  /-- The word of an instruction or of its trigger, if it is a keyword: its documentation. -/
  | keyword {i : Instruction} {c : Command} {k : Keyword} (hnode : e.node = .instruction i)
    (hcommand : c = i.toCommand ∨ i.trigger = some c)
    (hword : c.wordStart ≤ offset ∧ offset ≤ c.wordEnd) (hknown : c.known? = some k) :
    Gives provider d e offset 2 (provider (.keyword k))
  /-- The name in a declaration of `ARG`: the value declared, if there is one. -/
  | ownName {i : Instruction} {x : Declaration} (hnode : e.node = .instruction i)
    (harg : i.known? = some .arg) (hmem : x ∈ d.declarationsOf e.line.index i)
    (hname : x.start ≤ offset ∧ offset ≤ x.stop) : Gives provider d e offset 3 x.value
  /-- The first reference there: the value of what it sees, if it has one. -/
  | reference {i : Instruction} {r : ResolvedReference} (hnode : e.node = .instruction i)
    (hfirst : FirstAt (d.referencesIn e.line.index i) offset r) :
    Gives provider d e offset 4 r.value

/-- The answer of the first step that applies, and nothing if none does. -/
def FirstAnswer (provider : Provider) (d : Document) (e : Entry) (offset : Nat)
    (a : Option (List Char)) : Prop :=
  (∃ n, Gives provider d e offset n a ∧ ∀ m < n, ∀ b, ¬Gives provider d e offset m b)
    ∨ a = none ∧ ∀ n b, ¬Gives provider d e offset n b

end Document

theorem firstAt_iff {rs : List ResolvedReference} {offset : Nat} {r : ResolvedReference} :
    FirstAt rs offset r ↔ rs.find? (·.contains offset) = some r := by
  rw [List.find?_eq_some_iff_append]
  unfold FirstAt
  simp only [Reference.contains_iff, Bool.not_eq_true', ← Bool.not_eq_true]
  constructor
  · rintro ⟨front, back, hrs, hr, hfront⟩
    exact ⟨hr, front, back, hrs, hfront⟩
  · rintro ⟨hr, front, back, hrs, hfront⟩
    exact ⟨front, back, hrs, hr, hfront⟩

namespace Document

variable {s : List Char} {e : Entry} {offset : Nat} {provider : Provider}

/-! ## One answer -/

section Entries

variable (he : e ∈ (ofText s).entries)

include he

/-- A step gives one answer. -/
theorem Gives.unique {n : Nat} {a b : Option (List Char)}
    (ha : Gives provider (ofText s) e offset n a) (hb : Gives provider (ofText s) e offset n b) :
    a = b := by
  cases ha with
  | escapeKey =>
    cases hb with
    | escapeKey => rfl
  | keyword hnode hcommand hword hknown =>
    cases hb with
    | keyword hnode' hcommand' hword' hknown' =>
      rw [hnode] at hnode'
      obtain rfl := Node.instruction.inj hnode'
      -- two words do not touch, so it is one command
      have hparse := parse_of_instruction he hnode
      have hc := (Instruction.commandAt_eq_some_iff hparse).mpr ⟨hcommand, hword⟩
      rw [(Instruction.commandAt_eq_some_iff hparse).mpr ⟨hcommand', hword'⟩] at hc
      obtain rfl := Option.some.inj hc
      rw [hknown] at hknown'
      rw [Option.some.inj hknown']
  | ownName hnode harg hmem hname =>
    cases hb with
    | ownName hnode' harg' hmem' hname' =>
      rw [hnode] at hnode'
      obtain rfl := Node.instruction.inj hnode'
      -- neither do two names
      have hx := Declaration.find?_onName (Declaration.sorted_ofCommand _ _ _) hmem hname
      rw [Declaration.find?_onName (Declaration.sorted_ofCommand _ _ _) hmem' hname'] at hx
      rw [Option.some.inj hx]
  | reference hnode hfirst =>
    cases hb with
    | reference hnode' hfirst' =>
      rw [hnode] at hnode'
      obtain rfl := Node.instruction.inj hnode'
      rw [firstAt_iff] at hfirst hfirst'
      rw [hfirst] at hfirst'
      rw [Option.some.inj hfirst']

theorem FirstAnswer.unique {a b : Option (List Char)}
    (ha : FirstAnswer provider (ofText s) e offset a)
    (hb : FirstAnswer provider (ofText s) e offset b) : a = b := by
  rcases ha with ⟨n, hn, hmin⟩ | ⟨rfl, hnone⟩
  · rcases hb with ⟨m, hm, hmin'⟩ | ⟨-, hnone'⟩
    · rcases Nat.lt_trichotomy n m with hlt | rfl | hlt
      · exact absurd hn (hmin' n hlt a)
      · exact hn.unique he hm
      · exact absurd hm (hmin m hlt b)
    · exact absurd hn (hnone' n a)
  · rcases hb with ⟨m, hm, -⟩ | ⟨rfl, -⟩
    · exact absurd hm (hnone m b)
    · rfl

end Entries

/-- There is always a first answer. -/
theorem exists_firstAnswer (provider : Provider) (d : Document) (e : Entry) (offset : Nat) :
    ∃ a, FirstAnswer provider d e offset a := by
  by_cases hsome : ∃ n a, Gives provider d e offset n a
  · classical
    obtain ⟨a, ha⟩ := Nat.find_spec hsome
    exact ⟨a, Or.inl ⟨_, ha, fun m hm b hb => Nat.find_min hsome hm ⟨b, hb⟩⟩⟩
  · exact ⟨none, Or.inr ⟨rfl, fun n b hb => hsome ⟨n, b, hb⟩⟩⟩

end Document

end Dockerfile
