import Prereq.Proofs.Links.Knots

/-!
# The entries of a circle

While the first node of a circle is being followed, links lead to it but not on from it. So the
entries of the others hold what they reach without it.

* `Links.cut` : the links without those from one node (`reaches_of_cut`, `Reaches.cut`);
* `Links.ClearWithin` : no circle of some nodes can be reached;
* `Links.PlainRing` : nodes that share circles form a single one, so that without the links from any
  one of them there is none (`PlainRing.clearWithin`);
* `Links.Unwound` : what a table says while a node is being followed of those that share circles
  with it (`collect_unwound`);
* `Links.Opens.isAncestor_iff` : the entries of the nodes on a circle, if none of its circles is in
  reach once its first node is cut off.

Circles elsewhere that are in reach play no part: what leads to a node of the circle is on it too.
-/

namespace Prereq.Links

open Ancestors

variable {l : Links} {Z : Node → Prop} {path ns : List Node} {a b : Ancestors} {n m k s : Node}

/-! ## Links without those from one node -/

/-- The links without those from `s`. -/
def cut (l : Links) (s : Node) : Links := ⟨l.sources, fun n => if n = s then [] else l.targets n⟩

theorem next_cut (l : Links) (s n : Node) :
    (l.cut s).next n = if n = s then [] else l.next n := by
  by_cases hn : n = s <;> simp [next, cut, hn]

theorem next_cut_of_ne (l : Links) (h : n ≠ s) : (l.cut s).next n = l.next n := by
  rw [next_cut, if_neg h]

theorem not_reaches_cut : ¬ (l.cut s).Reaches s m := by
  intro h
  obtain ⟨k, hk, -⟩ := reaches_iff_next.1 h
  rw [next_cut, if_pos rfl] at hk
  cases hk

theorem reaches_cut_of_next (h : m ∈ l.next n) (hn : n ≠ s) : (l.cut s).Reaches n m :=
  Reaches.of_next ((l.next_cut_of_ne hn).symm ▸ h)

theorem mem_next_of_cut (h : m ∈ (l.cut s).next n) : m ∈ l.next n := by
  rw [next_cut] at h
  split at h
  next => cases h
  next => exact h

theorem reaches_of_cut (h : (l.cut s).Reaches n m) : l.Reaches n m :=
  h.mono fun _ _ => mem_next_of_cut

/-- What leads to `s` still does, up to where it is met for the first time. -/
theorem Reaches.cut (h : l.Reaches n s) (hn : n ≠ s) : (l.cut s).Reaches n s := by
  induction h using Relation.TransGen.head_induction_on with
  | single h => exact reaches_cut_of_next h hn
  | @head n m h hms ih =>
    by_cases hm : m = s
    · rw [hm] at h
      exact reaches_cut_of_next h hn
    · exact (reaches_cut_of_next h hn).trans (ih hm)

/-! ## Circles of some nodes -/

/-- No circle of nodes in `Z` goes through `n` or can be reached from it. -/
def ClearWithin (l : Links) (Z : Node → Prop) (n : Node) : Prop :=
  ∀ m, Z m → n = m ∨ l.Reaches n m → ¬ l.Reaches m m

theorem ClearWithin.of_reaches (hn : l.ClearWithin Z n) (h : l.Reaches n m) :
    l.ClearWithin Z m := by
  rintro k hk (rfl | hmk)
  · exact hn _ hk (.inr h)
  · exact hn _ hk (.inr (h.trans hmk))

/-- The nodes that share circles with `n` form a single circle: none has links to two of them. -/
def PlainRing (l : Links) (n : Node) : Prop :=
  ∀ k x y, l.OnCircle n k → l.Step k x → l.Step k y → l.OnCircle n x → l.OnCircle n y → x = y

/-- On a single circle, a circle through one of its nodes goes through the next one. -/
theorem PlainRing.reaches_cut_next (h : l.PlainRing n) (hk : l.OnCircle n k) (hm : l.OnCircle n m)
    (hkm : l.Step k m) (hcircle : (l.cut s).Reaches k k) : (l.cut s).Reaches m m := by
  obtain ⟨x, hx, hxk⟩ := reaches_iff_next.1 hcircle
  have hkx : l.Step k x := mem_next_of_cut hx
  have hon : l.OnCircle n x := by
    rcases hxk with rfl | hxk
    · exact hk
    · exact ⟨hk.1.trans (Reaches.of_next hkx), (reaches_of_cut hxk).trans hk.2⟩
  obtain rfl : x = m := h k x m hk hkx hkm hon hm
  rcases hxk with rfl | hxk
  · exact hcircle
  · exact hxk.trans (Reaches.of_next hx)

/-- A circle that avoids `s` would go on avoiding it all around. -/
theorem PlainRing.clearWithin (h : l.PlainRing n) (hs : l.OnCircle n s) (k : Node) :
    (l.cut s).ClearWithin (l.OnCircle n) k := by
  intro m hm _ hcircle
  have hround : ∀ x, Relation.TransGen
      (fun x y => l.OnCircle n x ∧ l.OnCircle n y ∧ l.Step x y) m x → (l.cut s).Reaches x x := by
    intro x hx
    induction hx with
    | single h' => exact h.reaches_cut_next h'.1 h'.2.1 h'.2.2 hcircle
    | tail _ h' ih => exact h.reaches_cut_next h'.1 h'.2.1 h'.2.2 ih
  exact not_reaches_cut (hround s (l.knot_onCircle n m s hm hs))

/-! ## Below a node that is being followed -/

/-- Of the nodes that share circles with `s` and are known, the entries hold those that they reach
without links from `s`, provided that none of the circles is in reach without them. -/
def Unwound (l : Links) (s : Node) (a : Ancestors) : Prop :=
  ∀ n, l.OnCircle s n → a.knows n →
    n ≠ s ∧ ((l.cut s).ClearWithin (l.OnCircle s) n →
      ∀ m, l.OnCircle s m → (a.isAncestor m n ↔ (l.cut s).Reaches n m))

/-- What leads back from a node of the circle is on it. -/
theorem onCircle_of_next (hn : l.OnCircle s n) (hm : m ∈ l.next n) (hk : l.OnCircle s k)
    (h : l.Reaches m k) : l.OnCircle s m :=
  ⟨hn.1.trans (Reaches.of_next hm), h.trans hk.2⟩

/-- A node gets what its targets are and have, and those that are still being followed would close a
circle, unless it is `s` that they lead back to. -/
theorem insert_gather_unwound (hn : n ≠ s)
    (hoff : ∀ p ∈ path, l.Reaches n p → p = s ∨ (l.cut s).Reaches p n)
    (hb : l.Entered (n :: path) (l.next n) a b) (hu : l.Unwound s b) :
    l.Unwound s (b.insert n (b.gather (l.next n))) := by
  intro k hk hknown
  by_cases hnk : n = k
  · subst hnk
    refine ⟨hn, fun hclear x hx => ?_⟩
    rw [isAncestor_insert_gather_self, reaches_iff_next, l.next_cut_of_ne hn]
    refine exists_congr fun m => and_congr_right fun hm => or_congr_right ?_
    have hnm : (l.cut s).Reaches n m := reaches_cut_of_next hm hn
    by_cases hon : l.OnCircle s m
    · by_cases hms : m = s
      · subst hms
        exact iff_of_false (fun h => (hu m hon (knows_of_isAncestor h)).1 rfl) not_reaches_cut
      · have hfollowed : m ∉ n :: path := by
          intro h
          rcases List.mem_cons.1 h with rfl | h
          · exact hclear m hon (.inl rfl) hnm
          · have hmn := (hoff m h (Reaches.of_next hm)).resolve_left hms
            exact hclear n hk (.inl rfl) (hnm.trans hmn)
        have hmknown : b.knows m := (hb.enters m hm).resolve_left hfollowed
        exact (hu m hon hmknown).2 (hclear.of_reaches hnm) x hx
    · exact iff_of_false (fun h => hon (onCircle_of_next hk hm hx (hb.records.sound m x h)))
        fun h => hon (onCircle_of_next hk hm hx (reaches_of_cut h))
  · obtain ⟨hks, hexact⟩ := hu k hk (knows_of_ne hknown hnk)
    refine ⟨hks, fun hclear x hx => ?_⟩
    rw [isAncestor_insert_of_ne b x _ hnk]
    exact hexact hclear x hx

theorem foldl_unwound {enter : Ancestors → Node → Ancestors}
    (step : ∀ a, ∀ n ∈ ns, l.Records a → l.Records (enter a n) ∧
      (l.Unwound s a → l.Unwound s (enter a n))) (a : Ancestors) (ha : l.Records a)
    (hu : l.Unwound s a) : l.Unwound s (ns.foldl enter a) :=
  (foldl_enter (R := fun _ a b => l.Records b ∧ (l.Unwound s a → l.Unwound s b))
    (fun _ ha => ⟨ha, id⟩) (fun _ _ _ _ _ hn hns => ⟨hns.1, hns.2 ∘ hn.2⟩) (fun _ _ _ => And.left)
    step a ha).2 hu

/-- Entering a node below `s`. Whatever else of the path it leads back to leads to it without links
from `s`. -/
theorem collect_unwound (path : List Node) (a : Ancestors) (n : Node) (hs : s ∈ path)
    (hpath : ∀ p ∈ path, l.Reaches p n)
    (hoff : ∀ p ∈ path, l.Reaches n p → p = s ∨ (l.cut s).Reaches p n) (ha : l.Records a)
    (hu : l.Unwound s a) : l.Unwound s (l.collect path a n) := by
  induction path, a, n using collect_induction (l := l) with
  | met path a n h => rwa [collect_of_met h]
  | new path a n hnew hoffpath ih =>
    have hn : n ≠ s := fun h => hoffpath (h ▸ hs)
    have hentered := foldl_entered (fun b m hm hb =>
      collect_entered (n :: path) b m hb (reaches_of_mem_cons hpath hm)) a ha
    rw [collect_of_new hnew hoffpath]
    refine insert_gather_unwound hn hoff hentered (foldl_unwound (fun b m hm hb => ?_) a ha hu)
    have hpath' := reaches_of_mem_cons hpath hm
    refine ⟨(collect_entered (n :: path) b m hb hpath').records, fun hu => ?_⟩
    have hnm : (l.cut s).Reaches n m := reaches_cut_of_next hm hn
    refine ih b m hm (List.mem_cons_of_mem n hs) hpath' ?_ hb hu
    refine List.forall_mem_cons.2 ⟨fun _ => .inr hnm, fun p hp hmp => ?_⟩
    exact (hoff p hp ((Reaches.of_next hm).trans hmp)).imp_right fun h => h.trans hnm

/-! ## The first node of a circle -/

/-- The entries of the other nodes of the circle hold what of it they reach without the links from the
first one, if none of its circles is in reach then. -/
theorem Opens.isAncestor_iff (h : l.Opens (l.OnCircle s) s path a b) (hk : l.OnCircle s k)
    (hm : l.OnCircle s m) (hne : k ≠ s) (hclear : (l.cut s).ClearWithin (l.OnCircle s) k) :
    b.isAncestor m k ↔ (l.cut s).Reaches k m := by
  set b' := (l.next s).foldl (l.collect (s :: path)) a with hb'
  have hcollect : l.collect path a s = b'.insert s (b'.gather (l.next s)) :=
    collect_of_new (h.new s h.mem).2 (h.new s h.mem).1
  have hstart : l.Unwound s a := fun x hx hknown => absurd hknown (h.new x hx).2
  have hunwound : l.Unwound s b' := by
    refine foldl_unwound (fun c x hx hc => ?_) a h.records hstart
    have hpath' := reaches_of_mem_cons h.leads hx
    refine ⟨(collect_entered (s :: path) c x hc hpath').records, ?_⟩
    refine collect_unwound _ c x List.mem_cons_self hpath' ?_ hc
    refine List.forall_mem_cons.2 ⟨fun _ => .inl rfl, fun p hp hxp => ?_⟩
    -- A node of the path that is reached from the circle would be on it.
    have hsp : l.OnCircle s p := ⟨(Reaches.of_next hx).trans hxp, h.leads p hp⟩
    exact absurd hp (h.new p hsp).1
  have hknown : (l.collect path a s).knows k := h.knows (l.knot_onCircle s) hk
  have hknown' : b'.knows k := knows_of_ne (hcollect ▸ hknown) hne.symm
  rw [← (hunwound k hk hknown').2 hclear m hm]
  unfold Ancestors.isAncestor
  rw [h.keeps k hknown, hcollect, of?_insert, if_neg hne.symm]

end Prereq.Links
