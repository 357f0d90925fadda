import Prereq.Proofs.Requirement.NormalForm
import Prereq.Proofs.Requirement.RoundTrip

/-!
# Texts that list nodes

A list of nodes is written with AND or a comma between them, with white space around AND.

* `Text.Separator`, `Text.Listing` : such texts, and the nodes they list;
* `Text.Lists` : the same, or nothing but white space;
* `Text.Lists.read?_eq`, `Text.Lists.mentions_eq` : what is read from such a text and what it
  mentions;
* `Requirement.jointly` : the requirement of all nodes of a list (`lists_render_jointly`);
* `Text.Lists.simplifyText_eq` : simplifying such a text lists the nodes that stay.
-/

namespace Prereq

namespace Text

/-- What stands between two listed nodes: a comma, or AND in any case between white space. -/
inductive Separator : List Char → Prop where
  | comma {w w' : List Char} (before : isBlank w) (after : isBlank w') :
    Separator (w ++ ',' :: w')
  | keyword {w k w' : List Char} (before : isBlank w) (gap : w ≠ [])
    (letters : k.map Char.toUpper = Connective.all.letters) (after : isBlank w') (gap' : w' ≠ []) :
    Separator (w ++ (k ++ w'))

/-- A text that lists nodes by their numerals, leading zeros allowed. -/
inductive Listing : List Char → List Node → Prop where
  | last {w d w' : List Char} {n : Node} (before : isBlank w) (numeral : Node.read? d = some n)
    (after : isBlank w') : Listing (w ++ (d ++ w')) [n]
  | more {w d sep s : List Char} {n : Node} {ns : List Node} (before : isBlank w)
    (numeral : Node.read? d = some n) (separator : Separator sep) (rest : Listing s ns) :
    Listing (w ++ (d ++ (sep ++ s))) (n :: ns)

/-- A text that lists nodes, or none of them if it is blank. -/
def Lists (s : String) (ns : List Node) : Prop :=
  (isBlank s.toList ∧ ns = []) ∨ Listing s.toList ns

/-! ## Blanks and separators -/

theorem isBlank_cons {y : Char} {w : List Char} : isBlank (y :: w) ↔ isBlankChar y ∧ isBlank w := by
  rw [isBlank, List.all_cons, Bool.and_eq_true]
  exact Iff.rfl

theorem not_isDigit_of_isBlankChar {y : Char} (h : isBlankChar y) : y.isDigit = false :=
  (Token.break_of_isBlankChar h).1

theorem head?_blank {w s : List Char} (hw : isBlank w) (hs : ∀ y ∈ s.head?, y.isDigit = false) :
    ∀ y ∈ (w ++ s).head?, y.isDigit = false := by
  cases w with
  | nil => exact hs
  | cons y w =>
    intro z hz
    cases hz
    exact not_isDigit_of_isBlankChar (isBlank_cons.1 hw).1

theorem Separator.head? {sep : List Char} (h : Separator sep) (s : List Char) :
    ∀ y ∈ (sep ++ s).head?, y.isDigit = false := by
  cases h with
  | comma before after =>
    rw [List.append_assoc]
    exact head?_blank before fun y hy => by cases hy; rfl
  | @keyword w k w' before gap letters after gap' =>
    cases w with
    | nil => exact absurd rfl gap
    | cons y w =>
      intro z hz
      cases hz
      exact not_isDigit_of_isBlankChar (isBlank_cons.1 before).1

theorem Separator.scan {sep : List Char} (h : Separator sep) (s : List Char) :
    Token.scan (sep ++ s) = .connective .all :: Token.scan s := by
  cases h with
  | comma before after =>
    rw [List.append_assoc, Token.scan_blanks before, List.cons_append, Token.scan_comma,
      Token.scan_blanks after]
  | keyword before gap letters after gap' =>
    rw [List.append_assoc, Token.scan_blanks before, List.append_assoc, Token.scan_keyword letters,
      Token.scan_blanks after]

theorem mentionsIn_append_blanks {w : List Char} (hw : isBlank w) (hne : w ≠ []) (d s : List Char) :
    mentionsIn (d ++ (w ++ s)) = mentionsIn d ++ mentionsIn s := by
  cases w with
  | nil => exact absurd rfl hne
  | cons y w =>
    obtain ⟨hy, hw⟩ := isBlank_cons.1 hw
    rw [List.cons_append, mentionsIn_append_break (not_isWordChar_of_isBlankChar hy),
      mentionsIn_blanks hw]

theorem Separator.mentionsIn_append {sep : List Char} (h : Separator sep) (d s : List Char) :
    mentionsIn (d ++ (sep ++ s)) = mentionsIn d ++ mentionsIn s := by
  cases h with
  | @comma w w' before after =>
    have hcomma : isWordChar ',' = false := by decide
    rw [List.append_assoc, List.cons_append]
    cases w with
    | nil => rw [List.nil_append, mentionsIn_append_break hcomma, mentionsIn_blanks after]
    | cons y w =>
      rw [mentionsIn_append_blanks before (List.cons_ne_nil y w), mentionsIn_cons_break hcomma,
        mentionsIn_blanks after]
  | @keyword w k w' before gap letters after gap' =>
    have hmem : ∀ y ∈ k, y.toUpper ∈ Connective.all.letters := fun y hy =>
      letters ▸ List.mem_map_of_mem hy
    have hk : mentionsIn k = [] := by
      obtain ⟨y, hy⟩ : ∃ y, y ∈ k := List.exists_mem_of_ne_nil k (by rintro rfl; cases letters)
      refine mentionsIn_word (fun z hz => ?_) hy ?_
      · exact isWordChar_of_isAlpha (Token.isAlpha_of_toUpper_mem (hmem z hz))
      · have hrange := Token.toNat_of_toUpper_mem (hmem y hy)
        rw [Bool.eq_false_iff]
        intro hd
        rw [isDigit_iff] at hd
        omega
    rw [List.append_assoc, List.append_assoc, mentionsIn_append_blanks before gap,
      mentionsIn_append_blanks after gap', hk, List.nil_append]

/-! ## Listings -/

theorem Listing.ne_nil {s : List Char} {ns : List Node} (h : Listing s ns) : ns ≠ [] := by
  cases h <;> exact List.cons_ne_nil _ _

theorem scan_numeral_append {d s : List Char} {n : Node} (h : Node.read? d = some n)
    (hs : ∀ y ∈ s.head?, y.isDigit = false) : Token.scan (d ++ s) = .node n :: Token.scan s := by
  rw [Token.scan_digits (Node.isDigit_of_read? h).2 hs, h]
  rfl

theorem scan_blank {w : List Char} (h : isBlank w) : Token.scan w = [] := by
  have happ := Token.scan_blanks (s := []) h
  rwa [List.append_nil] at happ

theorem Listing.scan_eq {s : List Char} {ns : List Node} (h : Listing s ns) :
    Token.scan s = Requirement.joinTokens .all (ns.map fun n => [.node n]) := by
  induction h with
  | @last w d w' n before numeral after =>
    have hhead := head?_blank (s := []) after nofun
    rw [List.append_nil] at hhead
    rw [Token.scan_blanks before, scan_numeral_append numeral hhead, scan_blank after]
    exact (Requirement.joinTokens_singleton _ _).symm
  | @more w d sep s n ns before numeral separator rest ih =>
    obtain ⟨m, ns, rfl⟩ := List.exists_cons_of_ne_nil rest.ne_nil
    rw [Token.scan_blanks before, scan_numeral_append numeral (separator.head? s), separator.scan,
      ih]
    simp only [List.map_cons, Requirement.joinTokens_cons_cons, List.singleton_append]

theorem Listing.mentionsIn_eq {s : List Char} {ns : List Node} (h : Listing s ns) :
    mentionsIn s = ns := by
  induction h with
  | @last w d w' n before numeral after =>
    rw [mentionsIn_blanks before]
    cases w' with
    | nil => rw [List.append_nil, mentionsIn_numeral numeral]
    | cons y w' =>
      have hblank := mentionsIn_append_blanks after (List.cons_ne_nil y w') d []
      rw [List.append_nil] at hblank
      rw [hblank, mentionsIn_numeral numeral]
      rfl
  | @more w d sep s n ns before numeral separator rest ih =>
    rw [mentionsIn_blanks before, separator.mentionsIn_append, mentionsIn_numeral numeral, ih]
    rfl

end Text

/-! ## Requirements that list nodes -/

namespace Requirement

/-- The requirement of all nodes of a list. -/
def jointly (ns : List Node) : Option Requirement := ofParts? .all (ns.map .node)

theorem canonical_jointly {ns : List Node} {r : Requirement} (h : jointly ns = some r) :
    r.Canonical := by
  refine canonical_of_ofParts? h fun p hp => ?_
  obtain ⟨n, -, rfl⟩ := List.mem_map.1 hp
  exact ⟨nofun, canonical_node n⟩

/-- One node stands for itself, and several form a group. -/
theorem jointly_eq_some {ns : List Node} {r : Requirement} (h : jointly ns = some r) :
    (∃ n, ns = [n] ∧ r = .node n) ∨ r = group .all (ns.map .node) := by
  refine (ofParts?_eq_some_iff.1 h).imp (fun hone => ?_) fun hmany => hmany.2
  obtain ⟨n, ns, rfl, hn, hns⟩ := List.map_eq_cons_iff.1 hone
  exact ⟨n, by rw [List.map_eq_nil_iff.1 hns], hn.symm⟩

theorem tokens_jointly {ns : List Node} {r : Requirement} (h : jointly ns = some r) :
    r.tokens = joinTokens .all (ns.map fun n => [.node n]) := by
  rcases jointly_eq_some h with ⟨n, rfl, rfl⟩ | rfl
  · exact (joinTokens_singleton _ _).symm
  · rw [tokens_group, List.map_map]
    rfl

theorem chars_jointly {ns : List Node} {r : Requirement} (h : jointly ns = some r) :
    r.chars = joinParts .all (ns.map Node.digits) := by
  rcases jointly_eq_some h with ⟨n, rfl, rfl⟩ | rfl
  · simp [joinParts, List.intercalate]
  · rw [chars_group, List.map_map]
    rfl

theorem nesting_jointly {ns : List Node} {r : Requirement} (h : jointly ns = some r) :
    Token.nesting r.tokens ≤ Token.nestingLimit := by
  rw [tokens_jointly h]
  refine nestingFrom_joinTokens_le fun x hx => ?_
  obtain ⟨n, -, rfl⟩ := List.mem_map.1 hx
  exact ⟨Token.Balanced.nil.node n, Nat.zero_le _⟩

theorem jointly_eq_none_iff {ns : List Node} : jointly ns = none ↔ ns = [] := by
  rw [jointly, ofParts?_eq_none_iff, List.map_eq_nil_iff]

end Requirement

open Requirement

theorem Text.Lists.mentions_eq {s : String} {ns : List Node} (h : Text.Lists s ns) :
    mentions s = ns := by
  show mentionsIn s.toList = ns
  rcases h with ⟨hblank, rfl⟩ | h
  · have happ := mentionsIn_blanks (s := []) hblank
    rw [List.append_nil] at happ
    rw [happ]
    rfl
  · exact h.mentionsIn_eq

theorem Text.Lists.read?_eq {s : String} {ns : List Node} (h : Text.Lists s ns) :
    read? s = jointly ns := by
  rcases h with ⟨hblank, rfl⟩ | h
  · rw [read?, Token.ofText, Text.scan_blank hblank]
    rfl
  · obtain ⟨r, hr⟩ := Option.ne_none_iff_exists'.1 fun e => h.ne_nil (jointly_eq_none_iff.1 e)
    have hscan : Token.scan s.toList = r.tokens := by rw [h.scan_eq, tokens_jointly hr]
    rw [hr, read?_of_scan (canonical_jointly hr) hscan (nesting_jointly hr)]

/-! ## Written lists -/

theorem listing_joinParts {ns : List Node} (h : ns ≠ []) :
    Text.Listing (joinParts .all (ns.map Node.digits)) ns := by
  have hnil : Text.isBlank [] := rfl
  induction ns with
  | nil => exact absurd rfl h
  | cons n ns ih =>
    have hn := Node.read?_digits n
    cases ns with
    | nil =>
      have hlast := Text.Listing.last hnil hn hnil
      rw [List.append_nil, List.nil_append] at hlast
      simpa [joinParts, List.intercalate] using hlast
    | cons m ns =>
      have hblank : Text.isBlank [' '] := rfl
      have hsep : Text.Separator ([' '] ++ (Connective.all.letters ++ [' '])) :=
        .keyword hblank (List.cons_ne_nil _ _) (Token.map_toUpper_letters .all) hblank
          (List.cons_ne_nil _ _)
      have hmore := Text.Listing.more hnil hn hsep (ih (List.cons_ne_nil m ns))
      rw [List.map_cons, List.map_cons, joinParts_cons_cons]
      simpa using hmore

theorem lists_render_jointly (ns : List Node) : Text.Lists (render (jointly ns)) ns := by
  cases hr : jointly ns with
  | none =>
    obtain rfl := jointly_eq_none_iff.1 hr
    exact .inl ⟨rfl, rfl⟩
  | some r =>
    have hne : ns ≠ [] := by
      rintro rfl
      cases hr
    right
    show Text.Listing (String.ofList r.chars).toList ns
    rw [String.toList_ofList, chars_jointly hr]
    exact listing_joinParts hne

/-! ## Simplifying a list -/

/-- The nodes of a list that stay beside each other. -/
def Ancestors.staying (a : Ancestors) (ns : List Node) : List Node :=
  survivors (fun x y => a.covers y x) [] ns

theorem simplify?_jointly (a : Ancestors) (ns : List Node) :
    (jointly ns).bind (simplify? a) = jointly (a.staying ns) := by
  have hred : ∀ x y : Node,
      Connective.all.redundant a (.node x) (.node y) = a.covers y x := by
    intro x y
    simp [Connective.redundant]
  cases hr : jointly ns with
  | none =>
    obtain rfl := jointly_eq_none_iff.1 hr
    rfl
  | some r =>
    rcases jointly_eq_some hr with ⟨n, rfl, rfl⟩ | rfl
    · have hstay : a.staying [n] = [n] :=
        survivors_eq_self (fun _ _ _ hk => absurd hk List.not_mem_nil) (List.pairwise_singleton _ n)
      rw [hstay]
      rfl
    · have hnodes : (ns.map Requirement.node).filterMap (simplify? a) = ns.map .node := by
        have hsome : simplify? a ∘ Requirement.node = some ∘ Requirement.node := rfl
        rw [List.filterMap_map, hsome, List.filterMap_eq_map]
      have hsplice : splice .all (ns.map Requirement.node) = ns.map .node :=
        splice_eq_self (List.forall_mem_map.2 fun _ _ => (Option.some_ne_none Connective.all).symm)
      have hmap := survivors_map (Connective.all.redundant a) Requirement.node [] ns
      simp only [hred] at hmap
      rw [Option.bind_some, simplify?_group_eq, operands, hnodes, hsplice]
      exact congrArg (ofParts? .all) hmap

theorem Text.Lists.simplifyText_eq {s : String} {ns : List Node} (h : Text.Lists s ns)
    (a : Ancestors) : simplifyText a s = render (jointly (a.staying ns)) := by
  rw [simplifyText, h.read?_eq, simplify?_jointly]

end Prereq
