import Prereq.Proofs.Links.Ancestors

/-!
# Links that can be left out

* `Links.Reduces` : links are left out, each of them to a node that is reached from another target
  of the same node, one that is kept;
* `Links.Reduces.reaches_iff` : without circles this leaves everything within reach, even where
  links are left out at many nodes at once. The target that makes up for a link lies strictly
  further on, so the induction runs along the links.
-/

namespace Prereq.Links

variable {l l' : Links} {n m : Node}

/-- The links `l'` are among the links `l`, and what is left out is reached from what is kept. -/
structure Reduces (l' l : Links) : Prop where
  among : ∀ n, ∀ m ∈ l'.next n, m ∈ l.next n
  reached : ∀ n, ∀ m ∈ l.next n, ∃ k ∈ l'.next n, k = m ∨ l.Reaches k m

theorem Reduces.acyclic (h : l'.Reduces l) (hl : l.Acyclic) : l'.Acyclic :=
  fun n hn => hl n (hn.mono h.among)

theorem Reduces.reaches_iff (h : l'.Reduces l) (hl : l.Acyclic) :
    l'.Reaches n m ↔ l.Reaches n m := by
  refine ⟨Reaches.mono h.among, ?_⟩
  induction n using hl.wellFounded.induction with
  | _ n ih =>
    intro hm
    obtain ⟨x, hx, hxm⟩ := reaches_iff_next.1 hm
    obtain ⟨k, hk, hkx⟩ := h.reached n x hx
    have hkm : k = m ∨ l.Reaches k m := by
      rcases hkx with rfl | hkx
      · exact hxm
      · rcases hxm with rfl | hxm
        · exact .inr hkx
        · exact .inr (hkx.trans hxm)
    have hnk : l.Reaches n k := Reaches.of_next (h.among n k hk)
    exact reaches_iff_next.2 ⟨k, hk, hkm.imp_right (ih k hnk)⟩

/-- The tables of ancestors record the same. -/
theorem Reduces.isAncestor_iff (h : l'.Reduces l) (hl : l.Acyclic) :
    l'.ancestors.isAncestor m n ↔ l.ancestors.isAncestor m n := by
  rw [isAncestor_iff_reaches (hl.clear n), isAncestor_iff_reaches ((h.acyclic hl).clear n),
    h.reaches_iff hl]

theorem Reduces.knows_iff (h : l'.Reduces l) (hl : l.Acyclic)
    (hsources : ∀ n, n ∈ l'.sources ↔ n ∈ l.sources) :
    l'.ancestors.knows n ↔ l.ancestors.knows n := by
  rw [knows_ancestors, knows_ancestors, hsources]
  simp only [h.reaches_iff hl]

end Prereq.Links
