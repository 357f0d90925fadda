import Prereq.Links.Ancestors
import Prereq.Proofs.Links.Reaches

/-!
# What the table of ancestors records

* `Ancestors.of?_insert`, `Ancestors.contains_gather` : one entry, and the set made for it;
* `Links.Records` : a table that records direct targets, nothing that is not reached, and all that
  is reached from a node without circles in reach;
* `Links.collect_induction` : what is shown of new nodes after their targets holds wherever a node is
  entered;
* `Links.Entered` : what entering a node does to such a table (`collect_entered`);
* `Links.ancestors_records`, `Links.knows_ancestors` : the finished table.

Around circles an entry may lack nodes, so that completeness is only claimed for clear nodes. A
walk never meets a node of its own path below a clear node, and the path leads to where it is.
-/

namespace Prereq

/-! ## Tables -/

namespace Ancestors

theorem of?_insert (a : Ancestors) (n m : Node) (s : Std.TreeSet Node) :
    (a.insert n s).of? m = if n = m then some s else a.of? m := by
  rw [of?, insert, Std.TreeMap.getElem?_insert, of?]
  simp only [Std.compare_eq_iff_eq]

theorem knows_eq_isSome (a : Ancestors) (n : Node) : a.knows n = (a.of? n).isSome := by
  rw [knows, of?, Std.TreeMap.contains_eq_isSome_getElem?]

theorem knows_insert {a : Ancestors} {n m : Node} {s : Std.TreeSet Node} :
    (a.insert n s).knows m ↔ n = m ∨ a.knows m := by
  rw [knows_eq_isSome, of?_insert, knows_eq_isSome]
  by_cases h : n = m <;> simp [h]

theorem isAncestor_insert_self (a : Ancestors) (n m : Node) (s : Std.TreeSet Node) :
    (a.insert n s).isAncestor m n = s.contains m := by
  rw [isAncestor, of?_insert, if_pos rfl, Option.any_some]

theorem isAncestor_insert_of_ne (a : Ancestors) {n k : Node} (m : Node) (s : Std.TreeSet Node)
    (h : n ≠ k) : (a.insert n s).isAncestor m k = a.isAncestor m k := by
  rw [isAncestor, of?_insert, if_neg h, isAncestor]

theorem knows_of_isAncestor {a : Ancestors} {n m : Node} (h : a.isAncestor m n) : a.knows n := by
  rw [knows_eq_isSome]
  unfold isAncestor at h
  cases hs : a.of? n with
  | none => rw [hs] at h; cases h
  | some s => rfl

theorem not_knows_empty (n : Node) : ¬ (∅ : Ancestors).knows n := by
  intro h
  change (∅ : Std.TreeMap Node (Std.TreeSet Node)).contains n at h
  simp at h

theorem covers_iff {a : Ancestors} {n m : Node} :
    a.covers n m ↔ n = m ∨ a.isAncestor m n := by
  rw [covers, Bool.or_eq_true, beq_iff_eq, eq_comm]

theorem covers_self (a : Ancestors) (n : Node) : a.covers n n := covers_iff.2 (.inl rfl)

/-- Where nothing is recorded, a node covers only itself. -/
theorem covers_empty {n m : Node} : (∅ : Ancestors).covers n m ↔ n = m := by
  rw [covers_iff, or_iff_left fun h => not_knows_empty n (knows_of_isAncestor h)]

theorem contains_insertMany (s t : Std.TreeSet Node) (m : Node) :
    (s.insertMany t).contains m = (s.contains m || t.contains m) := by
  have hlist : s.insertMany t = s.insertMany t.toList := by
    simp only [Std.TreeSet.insertMany, Std.TreeMap.insertManyIfNewUnit,
      Std.DTreeMap.Const.insertManyIfNewUnit,
      Std.DTreeMap.Internal.Impl.Const.insertManyIfNewUnit, Std.TreeSet.forIn_eq_forIn_toList]
  rw [hlist, Std.TreeSet.contains_insertMany_list, Std.TreeSet.contains_toList]

theorem contains_gather {a : Ancestors} {ns : List Node} {m : Node} :
    (a.gather ns).contains m ↔ ∃ n ∈ ns, n = m ∨ a.isAncestor m n := by
  have key : ∀ found : Std.TreeSet Node,
      (ns.foldl (fun found n => (found.insert n).insertMany ((a.of? n).getD ∅)) found).contains m ↔
        found.contains m ∨ ∃ n ∈ ns, n = m ∨ a.isAncestor m n := by
    induction ns with
    | nil => simp
    | cons n ns ih =>
      intro found
      have hstep : ((found.insert n).insertMany ((a.of? n).getD ∅)).contains m ↔
          found.contains m ∨ n = m ∨ a.isAncestor m n := by
        rw [contains_insertMany, Std.TreeSet.contains_insert, isAncestor]
        cases a.of? n <;> simp [or_comm, or_left_comm, or_assoc]
      rw [List.foldl_cons, ih, hstep, List.exists_mem_cons_iff, or_assoc]
  rw [gather, key]
  simp

end Ancestors

namespace Links

open Ancestors

variable {l : Links}

/-! ## Entering nodes -/

/-- What a table of ancestors has to say about the nodes it knows. -/
structure Records (l : Links) (a : Ancestors) : Prop where
  /-- The recorded ancestors are reached. -/
  sound : ∀ n m, a.isAncestor m n → l.Reaches n m
  /-- The direct targets are recorded. -/
  direct : ∀ n, a.knows n → ∀ m ∈ l.next n, a.isAncestor m n
  /-- Without a circle in reach, all that is reached is recorded. -/
  complete : ∀ n, a.knows n → l.Clear n → ∀ m, l.Reaches n m → a.isAncestor m n
  /-- Targets that are no sources are known themselves. -/
  mentioned : ∀ n, a.knows n → ∀ m ∈ l.next n, m ∈ l.sources ∨ a.knows m

/-- What entering the nodes `ns`, reached along `path`, makes of a table. -/
structure Entered (l : Links) (path : List Node) (ns : List Node) (a b : Ancestors) : Prop where
  records : l.Records b
  /-- Entries stay as they are. -/
  keeps : ∀ n, a.knows n → b.of? n = a.of? n
  /-- The nodes are known, unless they are still being followed. -/
  enters : ∀ n ∈ ns, n ∈ path ∨ b.knows n
  /-- Only the nodes and what they lead to are new. -/
  only : ∀ m, b.knows m → a.knows m ∨ ∃ n ∈ ns, n = m ∨ l.Reaches n m

theorem records_empty (l : Links) : l.Records ∅ where
  sound n _ h := absurd (knows_of_isAncestor h) (not_knows_empty n)
  direct n h := absurd h (not_knows_empty n)
  complete n h := absurd h (not_knows_empty n)
  mentioned n h := absurd h (not_knows_empty n)

theorem Entered.knows {path ns : List Node} {a b : Ancestors} (h : l.Entered path ns a b)
    {n : Node} (hn : a.knows n) : b.knows n := by
  rw [knows_eq_isSome] at hn ⊢
  rwa [h.keeps n (by rwa [knows_eq_isSome])]

theorem Entered.cons {path ns : List Node} {n : Node} {a b c : Ancestors}
    (hn : l.Entered path [n] a b) (hns : l.Entered path ns b c) :
    l.Entered path (n :: ns) a c where
  records := hns.records
  keeps m hm := (hns.keeps m (hn.knows hm)).trans (hn.keeps m hm)
  enters m hm := by
    rcases List.mem_cons.1 hm with rfl | hm
    · exact (hn.enters m List.mem_cons_self).imp_right hns.knows
    · exact hns.enters m hm
  only m hm := by
    rcases hns.only m hm with hm | ⟨k, hk, hkm⟩
    · rcases hn.only m hm with hm | ⟨k, hk, hkm⟩
      · exact .inl hm
      · exact .inr ⟨k, List.mem_cons.2 (.inl (List.mem_singleton.1 hk)), hkm⟩
    · exact .inr ⟨k, List.mem_cons_of_mem n hk, hkm⟩

theorem entered_nil {path : List Node} {a : Ancestors} (ha : l.Records a) :
    l.Entered path [] a a :=
  ⟨ha, fun _ _ => rfl, nofun, fun _ h => .inl h⟩

/-- Nodes are entered one after the other: what each of them shows, and what adds up, they show
together. -/
theorem foldl_enter {R : List Node → Ancestors → Ancestors → Prop}
    {enter : Ancestors → Node → Ancestors} {ns : List Node} (nil : ∀ a, l.Records a → R [] a a)
    (cons : ∀ n ns a b c, R [n] a b → R ns b c → R (n :: ns) a c)
    (records : ∀ ns a b, R ns a b → l.Records b)
    (step : ∀ a, ∀ n ∈ ns, l.Records a → R [n] a (enter a n)) :
    ∀ a, l.Records a → R ns a (ns.foldl enter a) := by
  induction ns with
  | nil => exact nil
  | cons n ns ih =>
    intro a ha
    have hn := step a n List.mem_cons_self ha
    have hns := ih (fun a m hm => step a m (List.mem_cons_of_mem n hm)) _ (records _ _ _ hn)
    exact cons _ _ _ _ _ hn hns

theorem foldl_entered {path : List Node} {enter : Ancestors → Node → Ancestors}
    {ns : List Node}
    (step : ∀ a, ∀ n ∈ ns, l.Records a → l.Entered path [n] a (enter a n)) :
    ∀ a, l.Records a → l.Entered path ns a (ns.foldl enter a) :=
  foldl_enter (fun _ => entered_nil) (fun _ _ _ _ _ => Entered.cons) (fun _ _ _ => Entered.records)
    step

theorem isAncestor_insert_gather_self {b : Ancestors} {n m : Node} {ns : List Node} :
    (b.insert n (b.gather ns)).isAncestor m n ↔ ∃ k ∈ ns, k = m ∨ b.isAncestor m k := by
  rw [isAncestor_insert_self, contains_gather]

theorem knows_of_ne {b : Ancestors} {n k : Node} {s : Std.TreeSet Node}
    (h : (b.insert n s).knows k) (hk : n ≠ k) : b.knows k :=
  (knows_insert.1 h).resolve_left hk

/-- A node gets what its targets are and have, once these have been entered. -/
theorem insert_gather_records {path : List Node} {a b : Ancestors} {n : Node}
    (hpath : ∀ p ∈ path, l.Reaches p n) (hb : l.Entered (n :: path) (l.next n) a b) :
    l.Records (b.insert n (b.gather (l.next n))) where
  sound k m h := by
    by_cases hk : n = k
    · subst hk
      obtain ⟨k, hk, hkm⟩ := isAncestor_insert_gather_self.1 h
      exact reaches_iff_next.2 ⟨k, hk, hkm.imp_right (hb.records.sound k m)⟩
    · rw [isAncestor_insert_of_ne b m _ hk] at h
      exact hb.records.sound k m h
  direct k hknown m hm := by
    by_cases hk : n = k
    · subst hk
      exact isAncestor_insert_gather_self.2 ⟨m, hm, .inl rfl⟩
    · rw [isAncestor_insert_of_ne b m _ hk]
      exact hb.records.direct k (knows_of_ne hknown hk) m hm
  complete k hknown hclear m hm := by
    by_cases hk : n = k
    · subst hk
      obtain ⟨k, hk, hkm⟩ := reaches_iff_next.1 hm
      refine isAncestor_insert_gather_self.2 ⟨k, hk, hkm.imp_right fun hkm => ?_⟩
      have hnk : l.Reaches n k := Reaches.of_next hk
      -- On the path `k` would close a circle through `n`.
      have hoff : k ∉ n :: path := by
        intro h
        rcases List.mem_cons.1 h with rfl | h
        · exact hclear k (.inl rfl) hnk
        · exact hclear n (.inl rfl) (hnk.trans (hpath k h))
      have hknows := (hb.enters k hk).resolve_left hoff
      exact hb.records.complete k hknows (hclear.of_reaches hnk) m hkm
    · rw [isAncestor_insert_of_ne b m _ hk]
      exact hb.records.complete k (knows_of_ne hknown hk) hclear m hm
  mentioned k hknown m hm := by
    have hkeep : b.knows m → m ∈ l.sources ∨ (b.insert n (b.gather (l.next n))).knows m :=
      fun h => .inr (knows_insert.2 (.inr h))
    by_cases hk : n = k
    · subst hk
      rcases hb.enters m hm with h | h
      · rcases List.mem_cons.1 h with rfl | h
        · exact .inl (mem_sources_of_mem_next hm)
        · exact .inl (hpath m h).mem_sources
      · exact hkeep h
    · exact (hb.records.mentioned k (knows_of_ne hknown hk) m hm).elim .inl hkeep

theorem insert_gather_entered {path : List Node} {a b : Ancestors} {n : Node}
    (new : ¬ a.knows n) (hpath : ∀ p ∈ path, l.Reaches p n)
    (hb : l.Entered (n :: path) (l.next n) a b) :
    l.Entered path [n] a (b.insert n (b.gather (l.next n))) where
  records := insert_gather_records hpath hb
  keeps k hk := by
    rw [of?_insert, if_neg, hb.keeps k hk]
    rintro rfl
    exact new hk
  enters k hk := .inr (knows_insert.2 (.inl (List.mem_singleton.1 hk).symm))
  only k hk := by
    rcases knows_insert.1 hk with rfl | hk
    · exact .inr ⟨n, List.mem_singleton_self n, .inl rfl⟩
    · rcases hb.only k hk with hk | ⟨m, hm, hmk⟩
      · exact .inl hk
      · exact .inr ⟨n, List.mem_singleton_self n, .inr (reaches_iff_next.2 ⟨m, hm, hmk⟩)⟩

/-- A node that is known, or still being followed, is not entered again. -/
theorem collect_of_met {path : List Node} {a : Ancestors} {n : Node} (h : a.knows n ∨ n ∈ path) :
    l.collect path a n = a := by
  rw [collect]
  by_cases hknown : a.knows n
  · rw [if_pos hknown]
  · rw [if_neg hknown, if_pos (h.resolve_left hknown)]

/-- A new node is entered after its targets. -/
theorem collect_of_new {path : List Node} {a : Ancestors} {n : Node} (new : ¬ a.knows n)
    (off : n ∉ path) :
    l.collect path a n =
      let b := (l.next n).foldl (l.collect (n :: path)) a
      b.insert n (b.gather (l.next n)) := by
  rw [collect, if_neg new, if_neg off]
  by_cases hsource : n ∈ l.sources
  · rw [if_pos hsource, next_of_mem hsource]
  · rw [if_neg hsource, next_of_not_mem hsource]
    rfl

/-- What is shown of new nodes once it is known of their targets, whatever the table is by then,
holds wherever a node is entered. -/
theorem collect_induction {P : List Node → Ancestors → Node → Prop}
    (met : ∀ path a n, a.knows n ∨ n ∈ path → P path a n)
    (new : ∀ path a n, ¬ a.knows n → n ∉ path → (∀ b, ∀ m ∈ l.next n, P (n :: path) b m) →
      P path a n)
    (path : List Node) (a : Ancestors) (n : Node) : P path a n :=
  depth_induction met new path a n

/-- Entering a node along a path that leads to it. -/
theorem collect_entered (path : List Node) (a : Ancestors) (n : Node) (ha : l.Records a)
    (hpath : ∀ p ∈ path, l.Reaches p n) : l.Entered path [n] a (l.collect path a n) := by
  induction path, a, n using collect_induction (l := l) with
  | met path a n h =>
    rw [collect_of_met h]
    exact ⟨ha, fun _ _ => rfl, fun m hm => List.mem_singleton.1 hm ▸ h.symm, fun _ h => .inl h⟩
  | new path a n hnew hoff ih =>
    rw [collect_of_new hnew hoff]
    exact insert_gather_entered hnew hpath (foldl_entered
      (fun b m hm hb => ih b m hm hb (reaches_of_mem_cons hpath hm)) a ha)

/-! ## The finished table -/

theorem foldl_collect_entered (ns : List Node) (a : Ancestors) (ha : l.Records a) :
    l.Entered [] ns a (ns.foldl (l.collect []) a) :=
  foldl_entered (fun b n _ hb => collect_entered [] b n hb (List.forall_mem_nil _)) a ha

theorem ancestors_entered (l : Links) : l.Entered [] l.sources ∅ l.ancestors :=
  foldl_collect_entered l.sources ∅ (records_empty l)

theorem ancestors_records (l : Links) : l.Records l.ancestors := l.ancestors_entered.records

theorem knows_ancestors_of_mem_sources {n : Node} (h : n ∈ l.sources) : l.ancestors.knows n :=
  (l.ancestors_entered.enters n h).resolve_left List.not_mem_nil

/-- The known nodes are the sources and what is reached from them. -/
theorem knows_ancestors {n : Node} :
    l.ancestors.knows n ↔ n ∈ l.sources ∨ ∃ m, l.Reaches m n := by
  refine ⟨fun h => ?_, fun h => ?_⟩
  · rcases l.ancestors_entered.only n h with h | ⟨m, hm, rfl | hmn⟩
    · exact absurd h (not_knows_empty n)
    · exact .inl hm
    · exact .inr ⟨m, hmn⟩
  · rcases h with h | ⟨m, hm⟩
    · exact knows_ancestors_of_mem_sources h
    · obtain ⟨k, hk⟩ := exists_reaches_iff.1 ⟨m, hm⟩
      have hk' := knows_ancestors_of_mem_sources (mem_sources_of_mem_next hk)
      rcases l.ancestors_records.mentioned k hk' n hk with h | h
      · exact knows_ancestors_of_mem_sources h
      · exact h

theorem reaches_of_isAncestor {n m : Node} (h : l.ancestors.isAncestor m n) : l.Reaches n m :=
  l.ancestors_records.sound n m h

/-- Where no circle is in reach, the recorded ancestors are all that is reached. -/
theorem isAncestor_iff_reaches {n m : Node} (hn : l.Clear n) :
    l.ancestors.isAncestor m n ↔ l.Reaches n m := by
  refine ⟨reaches_of_isAncestor, fun h => ?_⟩
  exact l.ancestors_records.complete n (knows_ancestors_of_mem_sources h.mem_sources) hn m h

end Links

end Prereq
