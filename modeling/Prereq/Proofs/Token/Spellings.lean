import Mathlib.Data.List.Basic
import Mathlib.Data.List.TakeDrop
import Mathlib.Data.List.TakeWhile
import Prereq.Proofs.Token.Nodes

/-!
# Scanning as a search

A search for tokens looks at each place of a text in turn, takes the first of the alternatives that
fits there, a parenthesis, a keyword, a comma or a run of digits, and goes on behind it. The scan
does not skip what it has taken; it sees the same tokens, since no token begins inside another one.

* `Token.spelling?` : the text of the token at the start of a text, with what follows it;
* `Token.ofSpelling?` : the token of such a text; there is none for a number that is too large;
* `Token.spellings` : the texts that the search finds (`Token.scan_eq`);
* `Token.filterMap_read?_spellings` : those of them that are numbers name the nodes of the scan.
-/

namespace Prereq.Token

variable {s w after : List Char}

/-- The text of the token at the start of a text, with what follows it: the first alternative that
fits. -/
def spelling? (s : List Char) : Option (List Char × List Char) :=
  match s with
  | [] => none
  | c :: rest =>
    if c = '(' ∨ c = ')' then some ([c], rest)
    else if startsKeyword .all s then some (s.splitAt Connective.all.letters.length)
    else if startsKeyword .any s then some (s.splitAt Connective.any.letters.length)
    else if c = ',' then some ([c], rest)
    else if c.isDigit then some (s.span Char.isDigit)
    else none

/-- The token that is written so. -/
def ofSpelling? (w : List Char) : Option Token :=
  if w = ['('] then some .opening
  else if w = [')'] then some .closing
  else if w = [','] then some (.connective .all)
  else if w.map Char.toUpper = Connective.all.letters then some (.connective .all)
  else if w.map Char.toUpper = Connective.any.letters then some (.connective .any)
  else (Node.read? w).map node

/-! ## Kinds of spellings -/

/-- Keywords hold no digit. -/
theorem not_digit_of_keyword {c : Connective} (h : w.map Char.toUpper = c.letters) :
    ∀ y ∈ w, y.isDigit = false := by
  intro y hy
  have hletter := toNat_of_toUpper_mem (h ▸ List.mem_map_of_mem hy)
  rw [Bool.eq_false_iff]
  intro hdigit
  rw [Text.isDigit_iff] at hdigit
  omega

theorem ofSpelling?_keyword {c : Connective} (h : w.map Char.toUpper = c.letters) :
    ofSpelling? w = some (.connective c) := by
  have hlen : w.length = c.letters.length := by rw [← h, List.length_map]
  have hne : ∀ y : Char, w ≠ [y] := by
    rintro y rfl
    cases c <;> cases hlen
  rw [ofSpelling?, if_neg (hne _), if_neg (hne _), if_neg (hne _), h]
  cases c <;> rfl

theorem ofSpelling?_digits (hne : w ≠ []) (h : ∀ y ∈ w, y.isDigit) :
    ofSpelling? w = (Node.read? w).map node := by
  have hsymbol : ∀ y : Char, y.isDigit = false → w ≠ [y] := by
    rintro y hy rfl
    rw [h y (List.mem_singleton_self y)] at hy
    cases hy
  have hkeyword : ∀ c : Connective, w.map Char.toUpper ≠ c.letters := by
    intro c hc
    obtain ⟨y, hy⟩ := List.exists_mem_of_ne_nil w hne
    cases (h y hy).symm.trans (not_digit_of_keyword hc y hy)
  rw [ofSpelling?, if_neg (hsymbol _ rfl), if_neg (hsymbol _ rfl), if_neg (hsymbol _ rfl),
    if_neg (hkeyword _), if_neg (hkeyword _)]

/-- A spelling names a node exactly if it is a number that fits. -/
theorem ofSpelling?_bind_node? (w : List Char) : (ofSpelling? w).bind node? = Node.read? w := by
  have hkeyword : ∀ c : Connective, w.map Char.toUpper = c.letters → Node.read? w = none := by
    intro c hc
    apply Node.read?_eq_none
    cases w with
    | nil => cases c <;> cases hc
    | cons y w => simp [not_digit_of_keyword hc y List.mem_cons_self]
  unfold ofSpelling?
  split_ifs with hopening hclosing hcomma hall hany
  · subst hopening; rfl
  · subst hclosing; rfl
  · subst hcomma; rfl
  · exact (hkeyword .all hall).symm
  · exact (hkeyword .any hany).symm
  · cases Node.read? w <;> rfl

/-! ## One token -/

/-- The text `s` begins with the token of `w`, which the scan sees first, and goes on with
`after`. -/
def Leads (w after s : List Char) : Prop :=
  after.length < s.length ∧ scan s = (ofSpelling? w).toList ++ scan after

theorem leads_keyword {c : Connective} (h : startsKeyword c s) :
    Leads (s.take c.letters.length) (s.drop c.letters.length) s := by
  constructor
  · have hlen := length_take_letters h
    have hpos : 0 < c.letters.length := by cases c <;> decide
    rw [List.length_drop]
    omega
  · have hword : (s.take c.letters.length).map Char.toUpper = c.letters := beq_iff_eq.1 h
    rw [ofSpelling?_keyword hword, Option.toList_some, List.singleton_append, ← scan_keyword hword,
      List.take_append_drop]

theorem leads_digits {c : Char} (hc : c.isDigit) (s : List Char) :
    Leads ((c :: s).takeWhile Char.isDigit) ((c :: s).dropWhile Char.isDigit) (c :: s) := by
  have hne : (c :: s).takeWhile Char.isDigit ≠ [] := by
    rw [List.takeWhile_cons_of_pos hc]
    exact List.cons_ne_nil _ _
  have hdigits : ∀ y ∈ (c :: s).takeWhile Char.isDigit, y.isDigit := fun _ =>
    List.mem_takeWhile_imp
  have hend : ∀ y ∈ ((c :: s).dropWhile Char.isDigit).head?, y.isDigit = false := by
    intro y hy
    have hnot := List.head?_dropWhile_not Char.isDigit (c :: s)
    rwa [hy] at hnot
  constructor
  · rw [List.dropWhile_cons_of_pos hc]
    exact Nat.lt_succ_of_le (List.length_dropWhile_le _ s)
  · rw [ofSpelling?_digits hne hdigits, ← scan_digits hdigits hend, List.takeWhile_append_dropWhile]

theorem leads_of_spelling? (h : spelling? s = some (w, after)) : Leads w after s := by
  cases s with
  | nil => cases h
  | cons c s =>
    unfold spelling? at h
    dsimp only at h
    split_ifs at h with hparen hall hany hcomma hdigit
    · cases h
      rcases hparen with rfl | rfl
      · exact ⟨Nat.lt_succ_self _, scan_opening _⟩
      · exact ⟨Nat.lt_succ_self _, scan_closing _⟩
    · rw [List.splitAt_eq] at h
      cases h
      exact leads_keyword hall
    · rw [List.splitAt_eq] at h
      cases h
      exact leads_keyword hany
    · cases h
      subst hcomma
      exact ⟨Nat.lt_succ_self _, scan_comma _⟩
    · rw [List.span_eq_takeWhile_dropWhile] at h
      cases h
      exact leads_digits hdigit s

theorem scan_of_spelling?_eq_none {c : Char} (h : spelling? (c :: s) = none) :
    scan (c :: s) = scan s := by
  unfold spelling? at h
  dsimp only at h
  split_ifs at h with hparen hall hany hcomma hdigit
  rw [not_or] at hparen
  rw [scan, scanFrom_cons_of_not_digit false (Bool.eq_false_iff.2 hdigit),
    symbol?_of_ne hparen.1 hparen.2 hcomma, if_neg hall, if_neg hany, Option.toList_none,
    List.nil_append]

/-! ## All tokens -/

/-- The texts of the tokens in a text, one search after the other. -/
def spellings : List Char → List (List Char)
  | [] => []
  | c :: rest =>
    match _h : spelling? (c :: rest) with
    | some (w, after) => w :: spellings after
    | none => spellings rest
termination_by s => s.length
decreasing_by
  · exact (leads_of_spelling? _h).1
  · exact Nat.lt_succ_self _

theorem scan_eq (s : List Char) : scan s = (spellings s).filterMap ofSpelling? := by
  induction s using spellings.induct with
  | case1 => simp [spellings, scan, scanFrom]
  | case2 c s w after h ih =>
    rw [(leads_of_spelling? h).2, ih, spellings]
    split
    next w' after' h' =>
      obtain ⟨rfl, rfl⟩ := Prod.mk.inj (Option.some.inj (h.symm.trans h'))
      rw [List.filterMap_cons]
      cases ofSpelling? w <;> rfl
    next hnone => cases h.symm.trans hnone
  | case3 c s h ih =>
    rw [scan_of_spelling?_eq_none h, ih, spellings]
    split
    next w' after' h' => cases h.symm.trans h'
    next => rfl

theorem filterMap_read?_spellings (s : List Char) :
    (spellings s).filterMap Node.read? = nodes (scan s) := by
  rw [scan_eq, nodes, List.filterMap_filterMap]
  exact (List.filterMap_congr fun w _ => ofSpelling?_bind_node? w).symm

end Prereq.Token
