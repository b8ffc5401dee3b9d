import Mathlib.Data.List.Forall2
import Dockerfile.Syntax.LineGrammar

/-!
# Outlines of parse trees fit the screen

A tree is shown with one line for each of its nodes and tokens, in the order of their places. A
place says which child to take at each node on the way down; places are compared like words in a
dictionary, so that a node comes before what stands under it, and everything under a child before
the next child.

Of the line of a token only the text can be cut. The part in front of it is fixed: the span and the
indentation of the node, one more indent, and the name of the terminal between two spaces. By how
much a line is too wide is counted with the whole name first and corrected after the name is cut,
and what is cut off from the text is counted from its end. As long as the screen has room for the
fixed part and three dots, the count never runs over the beginning of the text, and a line that is
cut ends exactly at the edge of the screen.

* `Row.line_eq_front_append` — the corrected count is the count with the name as it is shown
* `Row.length_line_le` — the width of a line, on a screen of any width
* `ParseTree.shows_rows` — one row for each node and token
* `ParseTree.lines_fit` — the lines of a tree
-/

namespace Dockerfile

/-! ## Cuts -/

/-- A place counted from the end cuts off what is behind it, at most the whole text. -/
theorem upTo_neg {n : Nat} (hn : 0 < n) (s : List Char) : upTo (-n) s = s.take (s.length - n) := by
  have hneg : (-n : Int) < 0 := by omega
  rw [upTo, if_pos hneg]
  congr 1
  omega

namespace Row

/-- What is cut off from the name is taken off the count. -/
theorem cutName_eq (name : List Char) (overflow : Int) :
    cutName name overflow = (name.take terminalColumns,
      overflow - (name.length - (name.take terminalColumns).length : Nat)) := by
  unfold cutName
  split
  next h =>
    have hkept : name.length - (name.length - terminalColumns) = terminalColumns := by omega
    simp only [upTo_neg (Nat.sub_pos_of_lt h), hkept, List.length_take_of_le (Nat.le_of_lt h)]
  next h =>
    rw [List.take_of_length_le (Nat.le_of_not_lt h), Nat.sub_self]
    simp

theorem cutText_of_nonpos {overflow : Int} (h : overflow ≤ 0) (text : List Char) :
    cutText overflow text = text :=
  if_neg (Int.not_lt.mpr h)

theorem cutText_of_pos {overflow : Nat} (h : 0 < overflow) (text : List Char) :
    cutText overflow text = text.take (text.length - (overflow + 3)) ++ "...".toList := by
  have hpos : (0 : Int) < overflow := by omega
  have hcast : (overflow : Int) + 3 = (overflow + 3 : Nat) := by omega
  rw [cutText, if_pos hpos, hcast, upTo_neg (by omega)]

/-! ## Lines of tokens -/

/-- What stands in front of the text on the line of a token: the span and the indentation of the
node, one more indent, and the name of the terminal, cut if it is too long, between two spaces. -/
def front (indent : List Char) (r : Row) (w : Token) : List Char :=
  r.lead indent ++ indent ++ ' ' :: (w.terminal.name.toList.take terminalColumns ++ [' '])

variable {r : Row} {w : Token} {indent : List Char} {columns : Nat}

/-- **The corrected count is the count with the name as it is shown.** -/
theorem line_eq_front_append (hitem : r.item = .token w) :
    r.line indent columns = r.front indent w
      ++ cutText ((r.front indent w).length + w.text.length - columns) w.text := by
  have hname := List.length_take_le' terminalColumns w.terminal.name.toList
  have hcount : ((r.lead indent).length + indent.length + w.text.length
        + w.terminal.name.toList.length + 2 : Nat) - (columns : Int)
        - (w.terminal.name.toList.length
          - (w.terminal.name.toList.take terminalColumns).length : Nat)
      = (r.front indent w).length + w.text.length - columns := by
    simp only [front, List.length_append, List.length_cons, List.length_nil]
    omega
  simp only [line, hitem, cutName_eq]
  rw [hcount]
  simp [front]

/-- A line that fits is not cut. -/
theorem line_of_fits (hitem : r.item = .token w)
    (hfits : (r.front indent w).length + w.text.length ≤ columns) :
    r.line indent columns = r.front indent w ++ w.text := by
  rw [line_eq_front_append hitem, cutText_of_nonpos (by omega)]

/-- A line that does not fit is cut to the edge of the screen, or to nothing but three dots behind
the fixed part. -/
theorem line_of_overflows (hitem : r.item = .token w)
    (hwide : columns < (r.front indent w).length + w.text.length) :
    r.line indent columns = r.front indent w
      ++ (w.text.take (columns - (r.front indent w).length - 3) ++ "...".toList) := by
  have hcast : ((r.front indent w).length + w.text.length - columns : Int)
      = ((r.front indent w).length + w.text.length - columns : Nat) := by omega
  have hkept : w.text.length - ((r.front indent w).length + w.text.length - columns + 3)
      = columns - (r.front indent w).length - 3 := by omega
  rw [line_eq_front_append hitem, hcast, cutText_of_pos (by omega), hkept]

/-- A line that does not fit is as wide as the screen, or as the fixed part with three dots behind
it. -/
theorem length_line_of_overflows (hitem : r.item = .token w)
    (hwide : columns < (r.front indent w).length + w.text.length) :
    (r.line indent columns).length = max columns ((r.front indent w).length + 3) := by
  have hdots : "...".toList.length = 3 := rfl
  rw [line_of_overflows hitem hwide, List.length_append, List.length_append, List.length_take,
    hdots]
  omega

/-- **The width of a line**, on a screen of any width. -/
theorem length_line_le (hitem : r.item = .token w) :
    (r.line indent columns).length ≤ max columns ((r.front indent w).length + 3) := by
  rcases Nat.lt_or_ge columns ((r.front indent w).length + w.text.length) with hwide | hfits
  · exact Nat.le_of_eq (length_line_of_overflows hitem hwide)
  · rw [line_of_fits hitem hfits, List.length_append]
    omega

end Row

/-! ## Places -/

namespace ParseTree

/-- The tree at a place: the number of the child to take at each node on the way down. -/
def subtree? : ParseTree → List Nat → Option ParseTree
  | t, [] => some t
  | t, i :: p => t.children[i]?.bind (·.subtree? p)

mutual

/-- The places of the nodes and tokens of a tree, in order. -/
def places : ParseTree → List (List Nat)
  | .token _ => [[]]
  | .node _ _ _ children => [] :: placesFrom 0 children

/-- The places of what stands under a node, from child number `i` on. -/
def placesFrom (i : Nat) : List ParseTree → List (List Nat)
  | [] => []
  | t :: more => t.places.map (i :: ·) ++ placesFrom (i + 1) more

end

theorem mem_placesFrom_iff {i : Nat} {ts : List ParseTree} {p : List Nat} :
    p ∈ placesFrom i ts ↔ ∃ j q t, p = (i + j) :: q ∧ ts[j]? = some t ∧ q ∈ t.places := by
  induction ts generalizing i with
  | nil => simp [placesFrom]
  | cons t more ih =>
    rw [placesFrom, List.mem_append, List.mem_map, ih]
    constructor
    · rintro (⟨q, hq, rfl⟩ | ⟨j, q, u, rfl, hu, hq⟩)
      · exact ⟨0, q, t, rfl, rfl, hq⟩
      · exact ⟨j + 1, q, u, by rw [Nat.add_right_comm]; rfl, hu, hq⟩
    · rintro ⟨j, q, u, rfl, hu, hq⟩
      cases j with
      | zero => exact Or.inl ⟨q, Option.some.inj hu ▸ hq, rfl⟩
      | succ j => exact Or.inr ⟨j, q, u, by rw [Nat.add_right_comm]; rfl, hu, hq⟩

/-- The places are those at which there is a tree. -/
theorem mem_places_iff {t : ParseTree} {p : List Nat} :
    p ∈ t.places ↔ (t.subtree? p).isSome := by
  induction p generalizing t with
  | nil => cases t <;> simp [places, subtree?]
  | cons i p ih =>
    cases t with
    | token w => simp [places, subtree?, children]
    | node rule start stop children =>
      simp only [places, List.mem_cons, reduceCtorEq, false_or, mem_placesFrom_iff, Nat.zero_add,
        subtree?, ParseTree.children, Option.isSome_iff_exists, Option.bind_eq_some_iff]
      constructor
      · rintro ⟨j, q, u, hcons, hu, hq⟩
        obtain ⟨rfl, rfl⟩ := List.cons.inj hcons
        obtain ⟨v, hv⟩ := Option.isSome_iff_exists.mp (ih.mp hq)
        exact ⟨v, u, hu, hv⟩
      · rintro ⟨v, u, hu, hv⟩
        exact ⟨i, p, u, rfl, hu, ih.mpr (Option.isSome_iff_exists.mpr ⟨v, hv⟩)⟩

mutual

/-- **The places are in order**, and there is none twice. -/
theorem pairwise_places : ∀ t : ParseTree, t.places.Pairwise (· < ·)
  | .token _ => List.pairwise_singleton _ _
  | .node _ _ _ children => by
    refine .cons (fun p hp => ?_) (pairwise_placesFrom 0 children)
    obtain ⟨j, q, t, rfl, -, -⟩ := mem_placesFrom_iff.mp hp
    exact List.nil_lt_cons _ _

theorem pairwise_placesFrom (i : Nat) :
    ∀ ts : List ParseTree, (placesFrom i ts).Pairwise (· < ·)
  | [] => .nil
  | t :: more => by
    rw [placesFrom]
    refine List.pairwise_append.mpr ⟨?_, pairwise_placesFrom (i + 1) more, ?_⟩
    · refine List.pairwise_map.mpr ((pairwise_places t).imp fun h => ?_)
      exact List.cons_lt_cons_iff.mpr (Or.inr ⟨rfl, h⟩)
    · intro p hp q hq
      obtain ⟨p', -, rfl⟩ := List.mem_map.mp hp
      obtain ⟨j, q', u, rfl, -, -⟩ := mem_placesFrom_iff.mp hq
      exact List.cons_lt_cons_iff.mpr (Or.inl (by omega))

end

/-! ## Rows of a tree -/

/-- The row that shows what stands at a place of a tree at a depth. A token is shown with the depth
and the span of its node. -/
inductive Shows (t : ParseTree) (level : Nat) : List Nat → Row → Prop
  | node {p rule start stop children}
    (hnode : t.subtree? p = some (.node rule start stop children)) :
    Shows t level p ⟨level + p.length, start, stop, .rule rule⟩
  | token {p rule start stop children i w}
    (hnode : t.subtree? p = some (.node rule start stop children))
    (htoken : children[i]? = some (.token w)) :
    Shows t level (p ++ [i]) ⟨level + p.length, start, stop, .token w⟩

/-- What a child shows one step deeper, its node shows. -/
theorem Shows.of_child {t u : ParseTree} {level i : Nat} {p : List Nat} {r : Row}
    (hu : t.children[i]? = some u) (h : u.Shows (level + 1) p r) : t.Shows level (i :: p) r := by
  have hdown : ∀ q, t.subtree? (i :: q) = u.subtree? q := fun q => by
    rw [subtree?, hu, Option.bind_some]
  have hdepth : ∀ q : List Nat, level + 1 + q.length = level + (i :: q).length := fun q => by
    rw [List.length_cons]
    omega
  cases h with
  | node hnode =>
    rw [hdepth]
    exact .node ((hdown _).trans hnode)
  | token hnode htoken =>
    rw [hdepth]
    exact .token ((hdown _).trans hnode) htoken

/-- One row for each node and token under a node, from the child behind `before` on. -/
theorem shows_childRows (rule : Rule) (start stop level : Nat) (before : List ParseTree) :
    ∀ ts, List.Forall₂ ((ParseTree.node rule start stop (before ++ ts)).Shows level)
      (placesFrom before.length ts) (childRows level start stop ts)
  | [] => by
    rw [childRows]
    exact .nil
  | .token w :: more => by
    have hchild : (before ++ .token w :: more)[before.length]? = some (.token w) := by simp
    have hmore := shows_childRows rule start stop level (before ++ [.token w]) more
    rw [List.append_assoc, List.length_append] at hmore
    rw [childRows]
    exact .cons (.token (p := []) rfl hchild) hmore
  | .node rule' start' stop' children :: more => by
    -- the rows of the child are those it has as a node of its own, one step deeper
    have hchild : (before ++ .node rule' start' stop' children :: more)[before.length]?
        = some (.node rule' start' stop' children) := by simp
    have hchildren := shows_childRows rule' start' stop' (level + 1) [] children
    have hmore := shows_childRows rule start stop level
      (before ++ [.node rule' start' stop' children]) more
    rw [List.append_assoc, List.length_append] at hmore
    rw [childRows, placesFrom]
    refine .cons (.of_child hchild (.node (p := []) rfl)) (List.rel_append ?_ hmore)
    exact List.forall₂_map_left_iff.mpr (hchildren.imp fun _ _ h => h.of_child hchild)

/-- **One row for each node and token** of a tree, in the order of the places. -/
theorem shows_rows (rule : Rule) (start stop level : Nat) (children : List ParseTree) :
    let t : ParseTree := .node rule start stop children
    List.Forall₂ (t.Shows level) t.places (t.rows level) := by
  intro t
  rw [rows]
  exact .cons (.node (p := []) rfl) (shows_childRows rule start stop level [] children)

/-! ## Lines -/

theorem cons_intercalate_lineFeed (l : List Char) (ls : List (List Char)) :
    '\n' :: List.intercalate ['\n'] (l :: ls) = (l :: ls).flatMap ('\n' :: ·) := by
  induction ls generalizing l with
  | nil => simp [List.intercalate]
  | cons l' ls ih =>
    have hstep : List.intercalate ['\n'] (l :: l' :: ls)
        = l ++ '\n' :: List.intercalate ['\n'] (l' :: ls) := by simp [List.intercalate]
    rw [hstep, ih, ← List.cons_append]
    exact List.flatMap_cons.symm

/-- The headline of a report is one line, whatever the text is. -/
theorem lineFeed_notMem_headline (s : List Char) : '\n' ∉ "parsed: ".toList ++ quoted s := by
  rw [List.mem_append, not_or]
  exact ⟨by decide, lineFeed_notMem_quoted s⟩

/-- A report shows the lines of the tree below its headline, each behind a line feed. -/
theorem report_of_parse {g : LineGrammar} {s : List Char} {rule : Rule} {start stop : Nat}
    {children : List ParseTree} (h : g.parse s = .ok (.node rule start stop children))
    (columns : Nat) :
    g.report columns s = "parsed: ".toList ++ quoted s
      ++ ((ParseTree.node rule start stop children).lines 0 [' ', ' '] columns).flatMap
        ('\n' :: ·) := by
  rw [lines, rows, List.map_cons, ← cons_intercalate_lineFeed, LineGrammar.report, h]
  simp only [outline, lines, rows, List.map_cons]

/--
**The lines of a tree keep to the screen.**

Take any node, so any tree that the line grammars read or a part of one, at any depth, with any
indent, on a screen of any width. Then

* there is one line for each node and token of the tree, in the order of their places, and a report
  is one line of its own and these lines, each behind a line feed;
* if the screen has room for the fixed part of the line of a token and three dots, the line is no
  wider than the screen;
* the text on it is whole if the line fits with it, and otherwise a beginning of the text with three
  dots behind it, and the line ends exactly at the edge of the screen.
-/
theorem lines_fit (rule : Rule) (start stop : Nat) (children : List ParseTree) (level : Nat)
    (indent : List Char) (columns : Nat) :
    let t : ParseTree := .node rule start stop children
    (∃ places : List (List Nat), places.Pairwise (· < ·) ∧
      (∀ p, p ∈ places ↔ (t.subtree? p).isSome) ∧
      List.Forall₂ (fun p line => ∃ r, t.Shows level p r ∧ line = r.line indent columns) places
        (t.lines level indent columns)) ∧
    (∀ (g : LineGrammar) (s : List Char), g.parse s = .ok t → ∃ head, '\n' ∉ head ∧
      g.report columns s = head ++ (t.lines 0 [' ', ' '] columns).flatMap ('\n' :: ·)) ∧
    ∀ p r w, t.Shows level p r → r.item = .token w →
      (r.front indent w).length + 3 ≤ columns →
      (r.line indent columns).length ≤ columns ∧
      ((r.front indent w).length + w.text.length ≤ columns →
        r.line indent columns = r.front indent w ++ w.text) ∧
      (columns < (r.front indent w).length + w.text.length →
        ∃ kept, kept <+: w.text ∧ r.line indent columns = r.front indent w ++ (kept ++ "...".toList)
          ∧ (r.line indent columns).length = columns) := by
  intro t
  refine ⟨⟨t.places, pairwise_places t, fun p => mem_places_iff, ?_⟩,
    fun g s h => ⟨_, lineFeed_notMem_headline s, report_of_parse h columns⟩,
    fun p r w _ hitem hroom => ⟨?_, ?_, ?_⟩⟩
  · rw [lines, List.forall₂_map_right_iff]
    exact (shows_rows rule start stop level children).imp fun p r h => ⟨r, h, rfl⟩
  · exact Nat.le_trans (Row.length_line_le hitem) (Nat.le_of_eq (Nat.max_eq_left hroom))
  · exact Row.line_of_fits hitem
  · intro hwide
    exact ⟨_, List.take_prefix _ _, Row.line_of_overflows hitem hwide,
      (Row.length_line_of_overflows hitem hwide).trans (Nat.max_eq_left hroom)⟩

/-- Both names are too long. The key fits with its name cut and goes to the edge of the screen, the
value loses five characters. -/
theorem lines_fit_directive :
    let s := "#escape=abcdefgh".toList
    let key : Token := ⟨.directiveKey, "escape".toList, 1⟩
    let value : Token := ⟨.directiveValue, "abcdefgh".toList, 8⟩
    let t : ParseTree := .node .start 0 16 [.token key, .token value]
    let row : Token → Row := fun w => ⟨0, 0, 16, .token w⟩
    LineGrammar.directive.parse s = .ok t ∧
      (∃ head, '\n' ∉ head ∧ LineGrammar.directive.report 30 s
        = head ++ (t.lines 0 [' ', ' '] 30).flatMap ('\n' :: ·)) ∧
      t.Shows 0 [0] (row key) ∧ ((row key).front [' ', ' '] key).length = 24 ∧
      (row key).line [' ', ' '] 30 = (row key).front [' ', ' '] key ++ key.text ∧
      t.Shows 0 [1] (row value) ∧ ((row value).front [' ', ' '] value).length = 24 ∧
      (row value).line [' ', ' '] 30 = "   0  16     DIRECTIVE_ abc...".toList ∧
      ∃ kept, kept <+: value.text
        ∧ (row value).line [' ', ' '] 30
          = (row value).front [' ', ' '] value ++ (kept ++ "...".toList)
        ∧ ((row value).line [' ', ' '] 30).length = 30 := by
  intro s key value t row
  have hform : DirectiveForm.parse s = .ok ⟨[], [], key.text, value.text⟩ := by decide +kernel
  have hparse : LineGrammar.directive.parse s = .ok t := by
    rw [LineGrammar.parse, hform]
    rfl
  have hkey : t.Shows 0 [0] (row key) := .token (p := []) rfl rfl
  have hvalue : t.Shows 0 [1] (row value) := .token (p := []) rfl rfl
  have hkeyFront : ((row key).front [' ', ' '] key).length = 24 := by decide +kernel
  have hvalueFront : ((row value).front [' ', ' '] value).length = 24 := by decide +kernel
  obtain ⟨-, hreport, hfit⟩ :=
    lines_fit .start 0 16 [.token key, .token value] 0 [' ', ' '] 30
  have hwhole := (hfit [0] (row key) key hkey rfl (by omega)).2.1
  have hcut := (hfit [1] (row value) value hvalue rfl (by omega)).2.2
  refine ⟨hparse, hreport .directive s hparse, hkey, hkeyFront, hwhole ?_, hvalue, hvalueFront,
    by decide +kernel, hcut ?_⟩
  · rw [hkeyFront]
    decide
  · rw [hvalueFront]
    decide

end ParseTree

end Dockerfile
