import Prereq.Proofs.Links.Ancestors

/-!
# Circles in the table of ancestors

* `Links.OnCircle`, `Links.Knot` : a circle goes through both of two nodes; the nodes of a set lead
  to each other through the set;
* `Links.Swept` : what entering nodes into a table shows of the nodes that are new in it
  (`collect_swept`);
* `Links.exists_isAncestor_self` : every circle has a node that is recorded as its own ancestor.

Around a circle most entries are partial, and which node has itself among its ancestors depends on
where the walk comes in: it is the node of the circle that is met first. When its entry is made,
all other nodes that share a circle with it are new, and the entry holds what any of the new nodes
leads to.
-/

namespace Prereq.Links

open Ancestors

variable {l : Links} {path ns : List Node} {a b c : Ancestors} {n m k : Node}

/-! ## Nodes of one circle -/

/-- A circle goes through both nodes. -/
def OnCircle (l : Links) (n m : Node) : Prop := l.Reaches n m ∧ l.Reaches m n

theorem OnCircle.trans (h : l.OnCircle n m) (h' : l.OnCircle m k) : l.OnCircle n k :=
  ⟨h.1.trans h'.1, h'.2.trans h.2⟩

theorem OnCircle.symm (h : l.OnCircle n m) : l.OnCircle m n := ⟨h.2, h.1⟩

/-- Nodes on one circle share circles with the same nodes. -/
theorem OnCircle.eq (h : l.OnCircle n m) : l.OnCircle n = l.OnCircle m := by
  funext k
  exact propext ⟨h.symm.trans, h.trans⟩

theorem OnCircle.reaches_self (h : l.OnCircle n m) : l.Reaches m m := h.2.trans h.1

/-- The nodes of a set lead to each other, and to themselves, through nodes of the set. -/
def Knot (l : Links) (Z : Node → Prop) : Prop :=
  ∀ n m, Z n → Z m → Relation.TransGen (fun x y => Z x ∧ Z y ∧ l.Step x y) n m

/-- What lies between two nodes of one circle shares a circle with them. -/
theorem knot_onCircle (l : Links) (n : Node) : l.Knot (l.OnCircle n) := by
  intro x y hx hy
  have hxy : l.Reaches x y := hx.2.trans hy.1
  induction hxy using Relation.TransGen.head_induction_on with
  | single h => exact .single ⟨hx, hy, h⟩
  | @head x z h hzy ih =>
    have hz : l.OnCircle n z := ⟨hx.1.trans (Reaches.of_next h), Reaches.trans hzy hy.2⟩
    exact (ih hz).head ⟨hx, hz, h⟩

/-! ## What the new nodes lead to -/

/-- What entering the nodes `ns`, reached along `path`, shows of the nodes that are new. -/
structure Swept (l : Links) (path ns : List Node) (a b : Ancestors) : Prop
    extends l.Entered path ns a b where
  /-- A new node leads to known nodes, or back to the path. -/
  follows : ∀ k, b.knows k → a.knows k ∨ ∀ m ∈ l.next k, m ∈ path ∨ b.knows m
  /-- What a new node leads to is recorded for one of the entered nodes. -/
  shares : ∀ k, b.knows k → a.knows k ∨ ∀ m ∈ l.next k, ∃ n ∈ ns, b.isAncestor m n
  /-- On each circle there is a node of the path, one that was known, or one that has itself
  among its ancestors. -/
  closes : ∀ k, b.knows k → l.Reaches k k →
    ∃ m, l.OnCircle k m ∧ (m ∈ path ∨ a.knows m ∨ b.isAncestor m m)

/-- Where nothing is entered, nothing is new. -/
theorem Entered.swept (h : l.Entered path ns a a) : l.Swept path ns a a where
  toEntered := h
  follows _ hk := .inl hk
  shares _ hk := .inl hk
  closes k hk hcircle := ⟨k, ⟨hcircle, hcircle⟩, .inr (.inl hk)⟩

theorem Entered.isAncestor (h : l.Entered path ns a b) (hm : a.isAncestor m n) :
    b.isAncestor m n := by
  unfold Ancestors.isAncestor at hm ⊢
  rwa [h.keeps n (knows_of_isAncestor hm)]

theorem Swept.cons (hn : l.Swept path [n] a b) (hns : l.Swept path ns b c) :
    l.Swept path (n :: ns) a c where
  toEntered := hn.toEntered.cons hns.toEntered
  follows k hk := by
    rcases hns.follows k hk with hk | hk
    · exact (hn.follows k hk).imp_right fun h m hm => (h m hm).imp_right hns.knows
    · exact .inr hk
  shares k hk := by
    rcases hns.shares k hk with hk | hk
    · refine (hn.shares k hk).imp_right fun h m hm => ⟨n, List.mem_cons_self, ?_⟩
      obtain ⟨x, hx, hmx⟩ := h m hm
      exact List.mem_singleton.1 hx ▸ hns.isAncestor hmx
    · refine .inr fun m hm => ?_
      obtain ⟨x, hx, hmx⟩ := hk m hm
      exact ⟨x, List.mem_cons_of_mem n hx, hmx⟩
  closes k hk hcircle := by
    obtain ⟨m, hkm, hm | hm | hm⟩ := hns.closes k hk hcircle
    · exact ⟨m, hkm, .inl hm⟩
    · obtain ⟨x, hmx, hx⟩ := hn.closes m hm hkm.reaches_self
      exact ⟨x, hkm.trans hmx, hx.imp_right (Or.imp_right hns.isAncestor)⟩
    · exact ⟨m, hkm, .inr (.inr hm)⟩

theorem foldl_swept {enter : Ancestors → Node → Ancestors}
    (step : ∀ a, ∀ n ∈ ns, l.Records a → l.Swept path [n] a (enter a n)) :
    ∀ a, l.Records a → l.Swept path ns a (ns.foldl enter a) :=
  foldl_enter (fun _ ha => (entered_nil ha).swept) (fun _ _ _ _ _ => Swept.cons)
    (fun _ _ _ h => h.records) step

section New

variable {Z : Node → Prop} (hn : b.knows n)
  (follows : ∀ k, b.knows k → a.knows k ∨ ∀ m ∈ l.next k, m ∈ path ∨ b.knows m)
  (new : ∀ m, Z m → m ∉ path ∧ ¬ a.knows m) (hknot : l.Knot Z) (hZn : Z n) (hZm : Z m)

include hn follows new hknot hZn hZm

/-- If no node of a knot was known or is on the path, then all of them are known once one of them is.
The walks from that one through the knot go through new nodes only. -/
theorem knows_of_new : b.knows m := by
  have hnm := hknot n m hZn hZm
  induction hnm with
  | single h =>
    exact (((follows n hn).resolve_left (new n hZn).2) _ h.2.2).resolve_left (new _ hZm).1
  | tail _ h ih =>
    obtain ⟨hy, -, hstep⟩ := h
    exact (((follows _ (ih hy)).resolve_left (new _ hy).2) _ hstep).resolve_left (new _ hZm).1

/-- Then they are all recorded for the node that is entered. -/
theorem isAncestor_of_new (shares : ∀ k, b.knows k → a.knows k ∨ ∀ m ∈ l.next k, b.isAncestor m n) :
    b.isAncestor m n := by
  obtain ⟨k, -, hk, -, hkm⟩ := Relation.TransGen.tail'_iff.1 (hknot n m hZn hZm)
  have hknown : b.knows k := knows_of_new hn follows new hknot hZn hk
  exact (shares k hknown).resolve_left (new k hk).2 m hkm

end New

section Insert

variable (hb : l.Swept (n :: path) (l.next n) a b)

include hb

theorem insert_gather_follows (hk : (b.insert n (b.gather (l.next n))).knows k) :
    a.knows k ∨ ∀ m ∈ l.next k, m ∈ path ∨ (b.insert n (b.gather (l.next n))).knows m := by
  have hknows : ∀ m, m ∈ n :: path ∨ b.knows m →
      m ∈ path ∨ (b.insert n (b.gather (l.next n))).knows m := by
    rintro m (hm | hm)
    · rcases List.mem_cons.1 hm with rfl | hm
      · exact .inr (knows_insert.2 (.inl rfl))
      · exact .inl hm
    · exact .inr (knows_insert.2 (.inr hm))
  rcases knows_insert.1 hk with rfl | hk
  · exact .inr fun m hm => hknows m (hb.enters m hm)
  · exact (hb.follows k hk).imp_right fun h m hm => hknows m (h m hm)

theorem insert_gather_shares (hk : (b.insert n (b.gather (l.next n))).knows k) :
    a.knows k ∨ ∀ m ∈ l.next k, (b.insert n (b.gather (l.next n))).isAncestor m n := by
  rcases knows_insert.1 hk with rfl | hk
  · exact .inr fun m hm => isAncestor_insert_gather_self.2 ⟨m, hm, .inl rfl⟩
  · refine (hb.shares k hk).imp_right fun h m hm => ?_
    obtain ⟨x, hx, hmx⟩ := h m hm
    exact isAncestor_insert_gather_self.2 ⟨x, hx, .inr hmx⟩

/-- A circle through the entered node has a node that was met before, or else this one is recorded
as its own ancestor. -/
theorem insert_gather_closes (hcircle : l.Reaches n n) : ∃ m, l.OnCircle n m ∧
    (m ∈ path ∨ a.knows m ∨ (b.insert n (b.gather (l.next n))).isAncestor m m) := by
  by_contra hnone
  push Not at hnone
  have hself : (b.insert n (b.gather (l.next n))).isAncestor n n := by
    have hn : l.OnCircle n n := ⟨hcircle, hcircle⟩
    refine isAncestor_of_new (knows_insert.2 (.inl rfl)) (fun k => insert_gather_follows hb)
      (fun m hm => ?_) (l.knot_onCircle n) hn hn fun k => insert_gather_shares hb
    exact ⟨(hnone m hm).1, (hnone m hm).2.1⟩
  exact (hnone n ⟨hcircle, hcircle⟩).2.2 hself

theorem insert_gather_swept (new : ¬ a.knows n) (hpath : ∀ p ∈ path, l.Reaches p n) :
    l.Swept path [n] a (b.insert n (b.gather (l.next n))) where
  toEntered := insert_gather_entered new hpath hb.toEntered
  follows _ hk := insert_gather_follows hb hk
  shares k hk := (insert_gather_shares hb hk).imp_right fun h m hm =>
    ⟨n, List.mem_singleton_self n, h m hm⟩
  closes k hk hcircle := by
    rcases knows_insert.1 hk with rfl | hk
    · exact insert_gather_closes hb hcircle
    · obtain ⟨m, hkm, hm⟩ := hb.closes k hk hcircle
      -- The node being entered is on the path of its targets, but no longer on its own.
      by_cases hnm : n = m
      · subst hnm
        obtain ⟨x, hnx, hx⟩ := insert_gather_closes hb hkm.reaches_self
        exact ⟨x, hkm.trans hnx, hx⟩
      · refine ⟨m, hkm, ?_⟩
        rw [isAncestor_insert_of_ne b m _ hnm]
        exact hm.imp_left fun hm => (List.mem_cons.1 hm).resolve_left (Ne.symm hnm)

end Insert

/-- Entering a node along a path that leads to it. -/
theorem collect_swept (path : List Node) (a : Ancestors) (n : Node) (ha : l.Records a)
    (hpath : ∀ p ∈ path, l.Reaches p n) : l.Swept path [n] a (l.collect path a n) := by
  have hentered := collect_entered path a n ha hpath
  induction path, a, n using collect_induction (l := l) with
  | met path a n h =>
    rw [collect_of_met h] at hentered ⊢
    exact hentered.swept
  | new path a n hnew hoff ih =>
    rw [collect_of_new hnew hoff]
    refine insert_gather_swept (foldl_swept (fun b m hm hb => ?_) a ha) hnew hpath
    have hpath' := reaches_of_mem_cons hpath hm
    exact ih b m hm hb hpath' (collect_entered (n :: path) b m hb hpath')

/-! ## The finished table -/

theorem ancestors_swept (l : Links) : l.Swept [] l.sources ∅ l.ancestors :=
  foldl_swept (fun a n _ ha => collect_swept [] a n ha (List.forall_mem_nil _)) ∅ (records_empty l)

/-- Every circle has a node that is recorded as its own ancestor. -/
theorem exists_isAncestor_self (h : l.Reaches n n) :
    ∃ m, l.OnCircle n m ∧ l.ancestors.isAncestor m m := by
  obtain ⟨m, hnm, hm | hm | hm⟩ :=
    l.ancestors_swept.closes n (knows_ancestors_of_mem_sources h.mem_sources) h
  · cases hm
  · exact absurd hm (not_knows_empty m)
  · exact ⟨m, hnm, hm⟩

/-- The links are acyclic just if no node is recorded as its own ancestor. -/
theorem acyclic_iff_isAncestor : l.Acyclic ↔ ∀ n, ¬ l.ancestors.isAncestor n n := by
  refine ⟨fun hl n hn => hl n (reaches_of_isAncestor hn), fun h n hn => ?_⟩
  obtain ⟨m, -, hm⟩ := exists_isAncestor_self hn
  exact h m hm

end Prereq.Links
