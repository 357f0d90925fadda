import Mathlib.Data.Fintype.Card
import Mathlib.Data.List.FinRange
import Mathlib.Order.WellFounded
import Prereq.Proofs.Curriculum
import Prereq.Proofs.Requirement.NormalForm

/-!
# Which positions survive

The pass over the parts of a group drops a part as soon as another one makes up for it, so what it
drops could depend on what it has dropped before. Where redundancy is transitive it does not.

* `Requirement.keptPositions` : the positions of the parts that survive, of which
  `survivors_eq_map` makes the parts;
* `Requirement.Yields` : a part gives way to another one: it is redundant beside it, and either the
  other one is not redundant in turn or it comes first. Transitive redundancy makes that a strict
  order (`Yields.trans`), so that everything leads to a part which gives way to none
  (`exists_unyielding`);
* `Requirement.Sifted` : the invariant of the pass, kept whether it drops or keeps a position;
  `Requirement.mem_keptPositions_iff` : the parts that give way to none survive, and no others;
* `Ancestors.Transitive`, `Connective.redundant_trans` : the tables that make redundancy transitive;
  those of curricula without circles are such (`Curriculum.Acyclic.transitive_ancestors`).
-/

namespace Prereq

/-! ## Transitive tables -/

/-- What covers a covering node covers what that one covers. -/
def Ancestors.Transitive (a : Ancestors) : Prop :=
  ∀ n m k, a.covers n m → a.covers m k → a.covers n k

theorem Curriculum.Acyclic.transitive_ancestors {c : Curriculum} (h : c.Acyclic) :
    c.ancestors.Transitive := by
  have hcovers : ∀ n m, c.ancestors.covers n m ↔ n = m ∨ c.links.Reaches n m := by
    intro n m
    rw [Ancestors.covers_iff, ancestors,
      Links.isAncestor_iff_reaches ((acyclic_links.2 h).clear n)]
  intro n m k hnm hmk
  rw [hcovers] at hnm hmk ⊢
  rcases hnm with rfl | hnm
  · exact hmk
  · rcases hmk with rfl | hmk
    · exact .inr hnm
    · exact .inr (hnm.trans hmk)

theorem Connective.redundant_trans {a : Ancestors} {c : Connective} {x y z : Requirement}
    (h : a.Transitive) (hxy : c.redundant a x y) (hyz : c.redundant a y z) :
    c.redundant a x z := by
  cases c with
  | all =>
    rw [redundant_all_iff] at hxy hyz ⊢
    intro n hn
    obtain ⟨m, hm, hmn⟩ := hxy n hn
    obtain ⟨k, hk, hkm⟩ := hyz m hm
    exact ⟨k, hk, h k m n hkm hmn⟩
  | any =>
    rw [redundant_any_iff] at hxy hyz ⊢
    intro k hk
    obtain ⟨m, hm, hmk⟩ := hyz k hk
    obtain ⟨n, hn, hnm⟩ := hxy m hm
    exact ⟨n, hn, h n m k hnm hmk⟩

namespace Requirement

variable {α : Type u} {redundant : α → α → Bool} {parts : List α} {i j k : Fin parts.length}

/-! ## Positions -/

/-- The positions of the parts that survive, found by the same pass. -/
def keptPositions (redundant : α → α → Bool) (parts : List α) : List (Fin parts.length) :=
  survivors (fun i j => redundant parts[i] parts[j]) [] (List.finRange parts.length)

theorem survivors_eq_map (redundant : α → α → Bool) (parts : List α) :
    survivors redundant [] parts = (keptPositions redundant parts).map (parts[·]) := by
  have hparts : (List.finRange parts.length).map (parts[·]) = parts :=
    List.map_getElem_finRange parts
  calc survivors redundant [] parts
      = survivors redundant ([].map (parts[·])) ((List.finRange parts.length).map (parts[·])) := by
        rw [hparts, List.map_nil]
    _ = (keptPositions redundant parts).map (parts[·]) := survivors_map redundant _ _ _

theorem pairwise_lt_keptPositions (redundant : α → α → Bool) (parts : List α) :
    (keptPositions redundant parts).Pairwise (· < ·) :=
  (List.pairwise_lt_finRange parts.length).sublist (survivors_sublist _ _ _)

/-- No two positions are kept of which the part at the one is redundant beside the part at the
other. -/
theorem eq_of_redundant_of_mem_keptPositions (hi : i ∈ keptPositions redundant parts)
    (hj : j ∈ keptPositions redundant parts) (h : redundant parts[i] parts[j]) : i = j := by
  have hsymm : Std.Symm fun i j : Fin parts.length =>
      ¬ redundant parts[i] parts[j] ∧ ¬ redundant parts[j] parts[i] := ⟨fun _ _ => And.symm⟩
  by_contra hne
  exact ((survivors_pairwise _ _ _).forall hi hj hne).1 h

/-- Where a copy of each part stays, no part is redundant beside a different one: of the copies of
these two, only one could stay. -/
theorem eq_of_redundant_of_copies
    (hcopies : ∀ i : Fin parts.length, ∃ k ∈ keptPositions redundant parts, parts[k] = parts[i])
    (h : redundant parts[i] parts[j]) : parts[i] = parts[j] := by
  obtain ⟨i', hi', hii'⟩ := hcopies i
  obtain ⟨j', hj', hjj'⟩ := hcopies j
  have hsame : i' = j' := eq_of_redundant_of_mem_keptPositions hi' hj' (by rwa [hii', hjj'])
  rw [← hii', ← hjj', hsame]

/-! ## Giving way -/

/-- The part at `i` gives way to the one at `j`: it is redundant beside it, and the one at `j` is not
redundant in turn or comes first. -/
def Yields (redundant : α → α → Bool) (parts : List α) (i j : Fin parts.length) : Prop :=
  redundant parts[i] parts[j] ∧ (¬ redundant parts[j] parts[i] ∨ j < i)

theorem forall_not_yields_iff : (∀ j, ¬ Yields redundant parts i j) ↔
    (∀ j : Fin parts.length, ¬ (redundant parts[i] parts[j] ∧ ¬ redundant parts[j] parts[i])) ∧
    ∀ j < i, ¬ (redundant parts[i] parts[j] ∧ redundant parts[j] parts[i]) := by
  constructor
  · intro h
    exact ⟨fun j hj => h j ⟨hj.1, .inl hj.2⟩, fun j hlt hj => h j ⟨hj.1, .inr hlt⟩⟩
  · rintro ⟨hstrict, hmutual⟩ j ⟨hij, hji | hlt⟩
    · exact hstrict j ⟨hij, hji⟩
    · by_cases hji : redundant parts[j] parts[i]
      · exact hmutual j hlt ⟨hij, hji⟩
      · exact hstrict j ⟨hij, hji⟩

section Transitive

variable (htrans : ∀ x y z, redundant x y → redundant y z → redundant x z)
include htrans

theorem Yields.trans (hij : Yields redundant parts i j) (hjk : Yields redundant parts j k) :
    Yields redundant parts i k := by
  refine ⟨htrans _ _ _ hij.1 hjk.1, ?_⟩
  by_cases hki : redundant parts[k] parts[i]
  · have hji : redundant parts[j] parts[i] := htrans _ _ _ hjk.1 hki
    have hkj : redundant parts[k] parts[j] := htrans _ _ _ hki hij.1
    have hlt : j < i := hij.2.resolve_left (not_not_intro hji)
    have hlt' : k < j := hjk.2.resolve_left (not_not_intro hkj)
    exact .inr (Fin.lt_trans hlt' hlt)
  · exact .inl hki

theorem wellFounded_yields (parts : List α) :
    WellFounded fun j i : Fin parts.length => Yields redundant parts i j := by
  have : IsTrans (Fin parts.length) fun j i => Yields redundant parts i j :=
    ⟨fun _ _ _ hji hkj => hkj.trans htrans hji⟩
  have : Std.Irrefl fun j i : Fin parts.length => Yields redundant parts i j := by
    refine ⟨fun i hi => ?_⟩
    rcases hi.2 with hnot | hlt
    · exact hnot hi.1
    · exact absurd hlt (Fin.lt_irrefl i)
  exact Finite.wellFounded_of_trans_of_irrefl _

/-- What gives way is redundant beside a part that does not. -/
theorem exists_unyielding (h : ∃ j, Yields redundant parts i j) :
    ∃ j, redundant parts[i] parts[j] ∧ ∀ k, ¬ Yields redundant parts j k := by
  induction i using (wellFounded_yields htrans parts).induction with
  | _ i ih =>
    obtain ⟨j, hij⟩ := h
    by_cases hj : ∃ k, Yields redundant parts j k
    · obtain ⟨k, hjk, hk⟩ := ih j hij hj
      exact ⟨k, htrans _ _ _ hij.1 hjk, hk⟩
    · exact ⟨j, hij.1, fun k hjk => hj ⟨k, hjk⟩⟩

/-! ## The pass -/

/-- What the invariant of the pass says when it has gone through the positions `done`: those that it
has kept are the ones among them that give way to none. -/
def Sifted (redundant : α → α → Bool) (parts : List α) (done kept : List (Fin parts.length)) : Prop :=
  ∀ k, k ∈ kept ↔ k ∈ done ∧ ∀ j, ¬ Yields redundant parts k j

omit htrans in
theorem Sifted.drop {done kept : List (Fin parts.length)} (h : Sifted redundant parts done kept)
    (hi : Yields redundant parts i j) : Sifted redundant parts (done ++ [i]) kept := by
  intro k
  rw [h, List.mem_append, List.mem_singleton]
  constructor
  · exact fun hk => ⟨.inl hk.1, hk.2⟩
  · rintro ⟨hk | rfl, hnot⟩
    · exact ⟨hk, hnot⟩
    · exact absurd hi (hnot j)

omit htrans in
theorem Sifted.keep {done kept : List (Fin parts.length)} (h : Sifted redundant parts done kept)
    (hi : ∀ j, ¬ Yields redundant parts i j) :
    Sifted redundant parts (done ++ [i]) (i :: kept) := by
  intro k
  rw [List.mem_cons, h, List.mem_append, List.mem_singleton]
  constructor
  · rintro (rfl | hk)
    · exact ⟨.inr rfl, hi⟩
    · exact ⟨.inl hk.1, hk.2⟩
  · rintro ⟨hk | rfl, hnot⟩
    · exact .inr ⟨hk, hnot⟩
    · exact .inl rfl

/-- The position that the pass comes to is dropped just if it gives way: the part which then makes up
for it gives way to none, so that it has been kept or is still to come. -/
theorem Sifted.superseded_iff {done later kept : List (Fin parts.length)}
    (h : Sifted redundant parts done kept)
    (hall : List.finRange parts.length = done ++ i :: later) :
    Superseded (fun i j => redundant parts[i] parts[j]) kept later i ↔
      ∃ j, Yields redundant parts i j := by
  have hsorted : (done ++ i :: later).Pairwise (· < ·) :=
    hall ▸ List.pairwise_lt_finRange parts.length
  have hdone : ∀ k ∈ done, k < i := fun k hk =>
    (List.pairwise_append.1 hsorted).2.2 k hk i List.mem_cons_self
  have hlater : ∀ k ∈ later, i < k :=
    (List.pairwise_cons.1 (List.pairwise_append.1 hsorted).2.1).1
  constructor
  · rintro (⟨k, hk, hik⟩ | ⟨k, hk, hik, hki⟩)
    · exact ⟨k, hik, .inr (hdone k ((h k).1 hk).1)⟩
    · exact ⟨k, hik, .inl hki⟩
  · intro hyields
    obtain ⟨j, hij, hj⟩ := exists_unyielding htrans hyields
    have hmem : j ∈ done ++ i :: later := hall ▸ List.mem_finRange j
    rcases List.mem_append.1 hmem with hjdone | hjrest
    · exact .inl ⟨j, (h j).2 ⟨hjdone, hj⟩, hij⟩
    · rcases List.mem_cons.1 hjrest with rfl | hjlater
      · obtain ⟨k, hjk⟩ := hyields
        exact absurd hjk (hj k)
      · exact .inr ⟨j, hjlater, hij, fun hji => hj i ⟨hji, .inr (hlater j hjlater)⟩⟩

/-- Of the positions that are left, the pass keeps those that give way to none. -/
theorem Sifted.mem_survivors_iff {done rest kept : List (Fin parts.length)}
    (h : Sifted redundant parts done kept) (hall : List.finRange parts.length = done ++ rest) :
    i ∈ survivors (fun i j => redundant parts[i] parts[j]) kept rest ↔
      i ∈ rest ∧ ∀ j, ¬ Yields redundant parts i j := by
  induction rest generalizing done kept with
  | nil => simp
  | cons k later ih =>
    have hall' : List.finRange parts.length = (done ++ [k]) ++ later := by simpa using hall
    have hsup := h.superseded_iff htrans hall
    rw [survivors_cons]
    split
    next hyes =>
      obtain ⟨j, hkj⟩ := hsup.1 hyes
      rw [ih (h.drop hkj) hall', List.mem_cons]
      exact and_congr_left fun hnot => (or_iff_right fun hik : i = k => hnot j (hik ▸ hkj)).symm
    next hno =>
      have hk : ∀ j, ¬ Yields redundant parts k j := fun j hkj => hno (hsup.2 ⟨j, hkj⟩)
      rw [List.mem_cons, ih (h.keep hk) hall', List.mem_cons, or_and_right]
      exact or_congr_left (and_iff_left_of_imp fun hik : i = k => hik ▸ hk).symm

theorem mem_keptPositions_iff : i ∈ keptPositions redundant parts ↔
    ∀ j, ¬ Yields redundant parts i j := by
  have hstart : Sifted redundant parts [] [] := fun k => by simp
  rw [keptPositions, hstart.mem_survivors_iff htrans (List.nil_append _).symm,
    and_iff_right (List.mem_finRange i)]

/-- What goes is redundant beside a part that stays. -/
theorem exists_kept_of_not_mem (hi : i ∉ keptPositions redundant parts) :
    ∃ j ∈ keptPositions redundant parts, redundant parts[i] parts[j] := by
  rw [mem_keptPositions_iff htrans, not_forall_not] at hi
  obtain ⟨j, hij, hj⟩ := exists_unyielding htrans hi
  exact ⟨j, (mem_keptPositions_iff htrans).2 hj, hij⟩

end Transitive

/-- **The pass is free of order.** Where covering is transitive, the operands of a group that stay
are those beside which no other one is strictly better and no earlier one as good, in their order;
and each operand that goes is redundant beside one that stays. -/
theorem kept_of_transitive (a : Ancestors) (trans : a.Transitive) (c : Connective)
    (parts : List Requirement) :
    let ops := operands a c parts
    let kept := keptPositions (c.redundant a) ops
    simplify? a (group c parts) = ofParts? c (kept.map (ops[·])) ∧
    kept.Pairwise (· < ·) ∧
    (∀ i, i ∈ kept ↔
      (∀ j : Fin ops.length, ¬ (c.redundant a ops[i] ops[j] ∧ ¬ c.redundant a ops[j] ops[i])) ∧
      ∀ j < i, ¬ (c.redundant a ops[i] ops[j] ∧ c.redundant a ops[j] ops[i])) ∧
    ∀ i, i ∉ kept → ∃ j ∈ kept, c.redundant a ops[i] ops[j] := by
  intro ops kept
  have htrans : ∀ x y z, c.redundant a x y → c.redundant a y z → c.redundant a x z :=
    fun x y z => Connective.redundant_trans trans
  have hkept : ∀ i, i ∈ kept ↔ ∀ j, ¬ Yields (c.redundant a) ops i j := fun i =>
    mem_keptPositions_iff htrans
  refine ⟨?_, pairwise_lt_keptPositions _ _, fun i => ?_, fun i hi => ?_⟩
  · rw [simplify?_group_eq, survivors_eq_map]
  · rw [hkept, forall_not_yields_iff]
  · rw [hkept, not_forall_not] at hi
    obtain ⟨j, hij, hj⟩ := exists_unyielding htrans hi
    exact ⟨j, (hkept j).2 hj, hij⟩

/-- Nodes 1 and 2 have each other as ancestors, and node 3 has both. -/
def seesaw : Ancestors := .ofList [(1, [2]), (2, [1]), (3, [1, 2])]

theorem covers_seesaw (n m : Node) : seesaw.covers n m ↔
    n = m ∨ (n = 1 ∧ m = 2) ∨ (n = 2 ∧ m = 1) ∨ n = 3 ∧ (m = 1 ∨ m = 2) := by
  have hempty : (∅ : Ancestors).of? n = none := by
    show (∅ : Std.TreeMap Node (Std.TreeSet Node))[n]? = none
    simp
  simp only [seesaw, Ancestors.covers_iff, Ancestors.isAncestor, Ancestors.ofList, List.foldl,
    Ancestors.of?_insert, hempty]
  split_ifs with h3 h2 h1
  · subst h3
    simp
  · subst h2
    simp only [Option.any_some, Std.TreeSet.contains_ofList, List.contains_eq_mem]
    grind
  · subst h1
    simp only [Option.any_some, Std.TreeSet.contains_ofList, List.contains_eq_mem]
    grind
  · simp [Ne.symm h3, Ne.symm h2, Ne.symm h1]

/-- Alternatives of which the first one is heavier than the two after it, and these are equivalent. -/
def choices : List Requirement := [.node 3, .node 2, .group .any [.node 1, .node 9]]

/-- Node 3 goes for either of the others, and node 1 for the earlier node 2. -/
theorem kept_of_transitive_seesaw :
    seesaw.Transitive ∧ operands seesaw .any choices = [.node 3, .node 2, .node 1, .node 9] ∧
    simplify? seesaw (.group .any choices) = some (.group .any [.node 2, .node 9]) ∧
    let ops := operands seesaw .any choices
    let kept := keptPositions (Connective.any.redundant seesaw) ops
    kept.map Fin.val = [1, 3] ∧
    ∀ i, i ∉ kept → ∃ j ∈ kept, Connective.any.redundant seesaw ops[i] ops[j] := by
  have trans : seesaw.Transitive := by
    intro n m k
    simp only [covers_seesaw]
    grind
  obtain ⟨-, -, -, hdropped⟩ := kept_of_transitive seesaw trans .any choices
  exact ⟨trans, by decide, by decide, by decide, hdropped⟩

end Requirement

end Prereq
