import Mathlib.Data.FinEnum
import Mathlib.Data.Fintype.Card
import Mathlib.Logic.Relation
import Prereq.Links.Basic

/-!
# Following links

* `Links.Step`, `Links.Reaches` : one link, and one or more of them;
* `Links.depth_induction` : the induction along a walk that goes into depth;
* `Links.Clear` : no circle can be reached from a node (`clear_iff_next`); `Links.Acyclic` : there
  is no circle;
* `Links.reaches_congr`, `Links.clear_congr` : what a node reaches, and whether a circle is among
  it, depends on the links from what it reaches only;
* `Links.Closed` : a set of nodes that no link leaves (`Closed.of_reaches`);
* `Links.Acyclic.wellFounded` : without circles, links can be followed only finitely far.
-/

namespace Prereq.Links

variable {l l' : Links} {n m k : Node}

/-- A link leads from `n` to `m`. -/
def Step (l : Links) (n m : Node) : Prop := m ∈ l.next n

/-- One or more links lead from `n` to `m`. -/
def Reaches (l : Links) : Node → Node → Prop := Relation.TransGen l.Step

/-- There is no circle. -/
def Acyclic (l : Links) : Prop := ∀ n, ¬ l.Reaches n n

/-- No circle goes through `n` or through a node that is reached from it. -/
def Clear (l : Links) (n : Node) : Prop := ∀ m, n = m ∨ l.Reaches n m → ¬ l.Reaches m m

/-- A set of nodes that no link leaves. -/
def Closed (l : Links) (V : Node → Prop) : Prop := ∀ n, V n → ∀ m ∈ l.next n, V m

theorem next_of_mem (h : n ∈ l.sources) : l.next n = l.targets n := if_pos h

theorem next_of_not_mem (h : n ∉ l.sources) : l.next n = [] := if_neg h

theorem mem_sources_of_mem_next (h : m ∈ l.next n) : n ∈ l.sources := by
  by_contra hn
  rw [next_of_not_mem hn] at h
  cases h

/-! ## Reaching -/

theorem Reaches.of_next (h : m ∈ l.next n) : l.Reaches n m := Relation.TransGen.single h

theorem Reaches.trans (h : l.Reaches n m) (h' : l.Reaches m k) : l.Reaches n k :=
  Relation.TransGen.trans h h'

/-- The first link of a walk. -/
theorem reaches_iff_next : l.Reaches n m ↔ ∃ k ∈ l.next n, k = m ∨ l.Reaches k m := by
  refine ⟨fun h => ?_, fun h => ?_⟩
  · obtain ⟨k, hk, hkm⟩ := Relation.TransGen.head'_iff.1 h
    exact ⟨k, hk, (Relation.reflTransGen_iff_eq_or_transGen.1 hkm).imp_left Eq.symm⟩
  · obtain ⟨k, hk, rfl | hkm⟩ := h
    · exact Reaches.of_next hk
    · exact (Reaches.of_next hk).trans hkm

theorem Reaches.mem_sources (h : l.Reaches n m) : n ∈ l.sources := by
  obtain ⟨k, hk, -⟩ := reaches_iff_next.1 h
  exact mem_sources_of_mem_next hk

/-- A node is reached just if a link leads to it. -/
theorem exists_reaches_iff : (∃ m, l.Reaches m n) ↔ ∃ m, n ∈ l.next m := by
  refine ⟨fun h => ?_, fun h => ?_⟩
  · obtain ⟨m, hm⟩ := h
    cases hm with
    | single h => exact ⟨_, h⟩
    | tail _ h => exact ⟨_, h⟩
  · obtain ⟨m, hm⟩ := h
    exact ⟨m, Reaches.of_next hm⟩

/-- Links that are among others lead nowhere else. -/
theorem Reaches.mono (hsub : ∀ n, ∀ m ∈ l.next n, m ∈ l'.next n)
    (h : l.Reaches n m) : l'.Reaches n m :=
  Relation.TransGen.mono hsub _ _ h

/-- Links agree on what `n` reaches if the links from there lead to the same nodes. -/
theorem reaches_congr (h : ∀ k, n = k ∨ l.Reaches n k → ∀ m, m ∈ l'.next k ↔ m ∈ l.next k) :
    l'.Reaches n m ↔ l.Reaches n m := by
  refine ⟨fun hm => ?_, fun hm => ?_⟩
  · induction hm with
    | single hk => exact Reaches.of_next ((h n (.inl rfl) _).1 hk)
    | tail _ hk ih => exact ih.trans (Reaches.of_next ((h _ (.inr ih) _).1 hk))
  · induction hm with
    | single hk => exact Reaches.of_next ((h n (.inl rfl) _).2 hk)
    | tail hb hk ih => exact ih.trans (Reaches.of_next ((h _ (.inr hb) _).2 hk))

/-! ## Walks in depth -/

/-- A path that leads to a node leads to its targets, and so does the node itself. -/
theorem reaches_of_mem_cons {path : List Node} (hpath : ∀ p ∈ path, l.Reaches p n)
    (hm : m ∈ l.next n) : ∀ p ∈ n :: path, l.Reaches p m :=
  List.forall_mem_cons.2 ⟨Reaches.of_next hm, fun p hp => (hpath p hp).trans (Reaches.of_next hm)⟩

/-- A walk in depth has a state `s` that knows some nodes, and goes on from the others unless they are
on its path. What is shown of new nodes once it is known of their targets, whatever the state is by
then, holds wherever the walk comes. -/
theorem depth_induction {σ : Type} {knows : σ → Node → Prop} {P : List Node → σ → Node → Prop}
    (met : ∀ path s n, knows s n ∨ n ∈ path → P path s n)
    (new : ∀ path s n, ¬ knows s n → n ∉ path → (∀ t, ∀ m ∈ l.next n, P (n :: path) t m) →
      P path s n)
    (path : List Node) (s : σ) (n : Node) : P path s n := by
  induction hv : l.unvisited path using Nat.strong_induction_on generalizing path s n with
  | _ v ih =>
    subst hv
    by_cases hmet : knows s n ∨ n ∈ path
    · exact met path s n hmet
    · obtain ⟨hnew, hoff⟩ := not_or.1 hmet
      refine new path s n hnew hoff fun t m hm => ?_
      exact ih _ (l.unvisited_cons_lt (mem_sources_of_mem_next hm) hoff) _ _ _ rfl

/-- The same where the state is a list of finished nodes. -/
theorem walk_induction {P : List Node → List Node → Node → Prop}
    (met : ∀ path f n, n ∈ f ∨ n ∈ path → P path f n)
    (new : ∀ path f n, n ∉ f → n ∉ path → (∀ g, ∀ m ∈ l.next n, P (n :: path) g m) → P path f n)
    (path f : List Node) (n : Node) : P path f n :=
  depth_induction met new path f n

/-! ## Circles -/

theorem Clear.of_reaches (hn : l.Clear n) (h : l.Reaches n m) : l.Clear m := by
  rintro k (rfl | hk)
  · exact hn _ (.inr h)
  · exact hn _ (.inr (h.trans hk))

theorem Acyclic.clear (hl : l.Acyclic) (n : Node) : l.Clear n := fun m _ => hl m

/-- A circle through a node goes through one of its targets too. -/
theorem clear_iff_next : l.Clear n ↔ ∀ m ∈ l.next n, l.Clear m := by
  refine ⟨fun hn m hm => hn.of_reaches (Reaches.of_next hm), fun h k hk hcircle => ?_⟩
  have hnk : l.Reaches n k := by
    rcases hk with rfl | hk
    · exact hcircle
    · exact hk
  obtain ⟨m, hm, hmk⟩ := reaches_iff_next.1 hnk
  exact h m hm k hmk hcircle

theorem clear_congr (h : ∀ k, n = k ∨ l.Reaches n k → ∀ m, m ∈ l'.next k ↔ m ∈ l.next k) :
    l'.Clear n ↔ l.Clear n := by
  have hreach : ∀ k, l'.Reaches n k ↔ l.Reaches n k := fun k => reaches_congr h
  unfold Clear
  simp only [hreach]
  refine forall₂_congr fun k hk => not_congr (reaches_congr fun x hx => h x ?_)
  -- What `k` reaches is reached from `n` as well.
  rcases hx with rfl | hx
  · exact hk
  · rcases hk with rfl | hk
    · exact .inr hx
    · exact .inr (hk.trans hx)

theorem Acyclic.wellFounded (hl : l.Acyclic) : WellFounded fun m n => l.Reaches n m := by
  have : IsTrans Node fun m n => l.Reaches n m := ⟨fun _ _ _ hnm hmk => hmk.trans hnm⟩
  have : Std.Irrefl fun m n => l.Reaches n m := ⟨hl⟩
  exact Finite.wellFounded_of_trans_of_irrefl _

/-! ## Closed sets -/

theorem Closed.of_reaches {V : Node → Prop} (hV : l.Closed V) (h : l.Reaches n m) (hn : V n) :
    V m := by
  induction h with
  | single h => exact hV _ hn _ h
  | tail _ h ih => exact hV _ ih _ h

/-- The nodes that some given nodes are or lead to form a closed set. -/
theorem closed_reached (l : Links) (ns : List Node) :
    l.Closed fun m => ∃ n ∈ ns, n = m ∨ l.Reaches n m := by
  rintro m ⟨n, hn, rfl | hm⟩ k hk
  · exact ⟨n, hn, .inr (Reaches.of_next hk)⟩
  · exact ⟨n, hn, .inr (hm.trans (Reaches.of_next hk))⟩

end Prereq.Links
