import Prereq.Links.Finish
import Prereq.Proofs.Links.Reaches
import Prereq.Proofs.Links.Walk

/-!
# What the finishing order looks like

* `Links.Settled` : a list in which every node stands once and in front of the nodes it leads to,
  unless these lead back to it;
* `Links.Finished` : what walks that meet no node linked to itself make of the finished nodes
  (`finished_of_finish`);
* `Links.finished_finishAll`, `Links.mem_next_of_finishAll` : the order of all nodes, and the node
  at which there is none.

A walk passes over nodes of its own path. On circles a node can therefore be finished before one
that it leads to, and this is the only exception.
-/

namespace Prereq.Links

variable {l : Links} {path ns finished finished' f g h : List Node} {n m k : Node}

/-- Every node stands once, and in front of the nodes it leads to that do not lead back to it. -/
def Settled (l : Links) : List Node → Prop
  | [] => True
  | n :: rest => n ∉ rest ∧ (∀ m ∈ l.next n, m ∈ rest ∨ l.Reaches m n) ∧ l.Settled rest

theorem Settled.nodup (hf : l.Settled f) : f.Nodup := by
  induction f with
  | nil => exact List.nodup_nil
  | cons n f ih =>
    obtain ⟨hn, -, hrest⟩ := hf
    exact List.nodup_cons.2 ⟨hn, ih hrest⟩

theorem Settled.mem_of_next (hf : l.Settled f) (hm : m ∈ f) (hn : n ∈ l.next m) :
    n ∈ f ∨ l.Reaches n m := by
  induction f with
  | nil => cases hm
  | cons k f ih =>
    obtain ⟨-, hnext, hrest⟩ := hf
    rcases List.mem_cons.1 hm with rfl | hm
    · exact (hnext n hn).imp_left (List.mem_cons_of_mem m)
    · exact (ih hrest hm).imp_left (List.mem_cons_of_mem k)

/-! ## Walking in depth -/

/-- A finished node, or one that is still being followed, is passed over. -/
theorem finish_of_met (h : n ∈ finished ∨ n ∈ path) :
    l.finish path finished n = .ok finished := by
  rw [finish]
  by_cases hmem : n ∈ finished
  · rw [if_pos hmem]
  · rw [if_neg hmem, if_pos (h.resolve_left hmem)]

/-- A new node is put in front of its targets. -/
theorem finish_of_new (new : n ∉ finished) (off : n ∉ path) :
    l.finish path finished n =
      if n ∈ l.next n then .error n
      else (n :: ·) <$> (l.next n).reverse.foldlM (l.finish (n :: path)) finished := by
  rw [finish, if_neg new, if_neg off]
  by_cases hsource : n ∈ l.sources
  · rw [if_pos hsource, next_of_mem hsource]
  · rw [if_neg hsource, next_of_not_mem hsource]
    rfl

/-- What walks from the nodes `ns`, reached along `path`, make of the finished nodes. -/
structure Finished (l : Links) (path ns finished finished' : List Node) : Prop where
  keeps : finished ⊆ finished'
  /-- The nodes are finished, unless they are still being followed. -/
  enters : ∀ n ∈ ns, n ∈ path ∨ n ∈ finished'
  /-- Nodes that are still being followed are not finished. -/
  off : ∀ k ∈ finished', k ∈ finished ∨ k ∉ path
  /-- Only the nodes and what they lead to are finished. -/
  only : ∀ k ∈ finished', k ∈ finished ∨ ∃ n ∈ ns, n = k ∨ l.Reaches n k
  /-- Nodes that link to themselves are not finished. -/
  loopless : ∀ k ∈ finished', k ∈ finished ∨ k ∉ l.next k
  settled : l.Settled finished → l.Settled finished'

theorem finished_refl (l : Links) (finished : List Node) (hns : ∀ n ∈ ns, n ∈ path ∨ n ∈ finished) :
    l.Finished path ns finished finished :=
  ⟨List.Subset.refl _, hns, fun _ => .inl, fun _ => .inl, fun _ => .inl, id⟩

theorem Finished.cons (hn : l.Finished path [n] f g) (hns : l.Finished path ns g h) :
    l.Finished path (n :: ns) f h where
  keeps := List.Subset.trans hn.keeps hns.keeps
  enters m hm := by
    rcases List.mem_cons.1 hm with rfl | hm
    · exact (hn.enters m (List.mem_singleton_self m)).imp_right fun h => hns.keeps h
    · exact hns.enters m hm
  off k hk := (hns.off k hk).elim (hn.off k) .inr
  only k hk := by
    rcases hns.only k hk with hk | ⟨m, hm, hmk⟩
    · refine (hn.only k hk).imp_right fun ⟨m, hm, hmk⟩ => ⟨m, ?_, hmk⟩
      exact List.mem_cons.2 (.inl (List.mem_singleton.1 hm))
    · exact .inr ⟨m, List.mem_cons_of_mem n hm, hmk⟩
  loopless k hk := (hns.loopless k hk).elim (hn.loopless k) .inr
  settled hf := hns.settled (hn.settled hf)

/-- A node is put in front of its targets, once these have been walked to. -/
theorem Finished.finish (hg : l.Finished (n :: path) ns f g) (hns : ∀ m, m ∈ ns ↔ m ∈ l.next n)
    (hnew : n ∉ f) (hoff : n ∉ path) (hloop : n ∉ l.next n) (hpath : ∀ p ∈ path, l.Reaches p n) :
    l.Finished path [n] f (n :: g) where
  keeps := List.subset_cons_of_subset n hg.keeps
  enters m hm := .inr (List.mem_singleton.1 hm ▸ List.mem_cons_self)
  off k hk := by
    rcases List.mem_cons.1 hk with rfl | hk
    · exact .inr hoff
    · exact (hg.off k hk).imp_right fun h hkp => h (List.mem_cons_of_mem n hkp)
  only k hk := by
    rcases List.mem_cons.1 hk with rfl | hk
    · exact .inr ⟨k, List.mem_singleton_self k, .inl rfl⟩
    · refine (hg.only k hk).imp_right fun ⟨m, hm, hmk⟩ => ?_
      exact ⟨n, List.mem_singleton_self n, .inr (reaches_iff_next.2 ⟨m, (hns m).1 hm, hmk⟩)⟩
  loopless k hk := by
    rcases List.mem_cons.1 hk with rfl | hk
    · exact .inr hloop
    · exact hg.loopless k hk
  settled hf := by
    refine ⟨fun hn => ?_, fun m hm => ?_, hg.settled hf⟩
    · exact (hg.off n hn).elim hnew fun h => h List.mem_cons_self
    · rcases hg.enters m ((hns m).2 hm) with h | h
      · rcases List.mem_cons.1 h with rfl | h
        · exact absurd hm hloop
        · exact .inr (hpath m h)
      · exact .inl h

theorem finished_of_finish (hpath : ∀ p ∈ path, l.Reaches p n)
    (h : l.finish path finished n = .ok finished') : l.Finished path [n] finished finished' := by
  induction path, finished, n using walk_induction (l := l) generalizing finished' with
  | met path f n hmet =>
    rw [finish_of_met hmet] at h
    cases h
    exact finished_refl l f fun m hm => List.mem_singleton.1 hm ▸ hmet.symm
  | new path f n hnew hoff ih =>
    rw [finish_of_new hnew hoff] at h
    split at h
    next hloop => cases h
    next hloop =>
      obtain ⟨g, hg, rfl⟩ := Except.map_eq_ok_iff.1 h
      refine Finished.finish ?_ (fun m => List.mem_reverse) hnew hoff hloop hpath
      refine Except.foldlM_eq_ok (R := l.Finished (n :: path)) ?_ (fun _ _ _ _ _ => .cons) ?_ hg
      · exact fun f => finished_refl l f nofun
      · intro m hm f f' hf
        have hnm := List.mem_reverse.1 hm
        exact ih f m hnm (reaches_of_mem_cons hpath hnm) hf

/-- A walk fails only at a node that links to itself. -/
theorem mem_next_of_finish (h : l.finish path finished n = .error k) : k ∈ l.next k := by
  induction path, finished, n using walk_induction (l := l) with
  | met path f n hmet =>
    rw [finish_of_met hmet] at h
    cases h
  | new path f n hnew hoff ih =>
    rw [finish_of_new hnew hoff] at h
    split at h
    next hloop =>
      cases h
      exact hloop
    next hloop =>
      obtain ⟨m, hm, g, hg⟩ := Except.exists_of_foldlM_eq_error (Except.map_eq_error_iff.1 h)
      exact ih g m (List.mem_reverse.1 hm) hg

/-! ## The order of all nodes -/

theorem finished_finishAll (h : l.finishAll = .ok f) : l.Finished [] l.sources [] f :=
  Except.foldlM_eq_ok (R := l.Finished []) (fun f => finished_refl l f nofun)
    (fun _ _ _ _ _ => .cons) (fun _ _ _ _ hf => finished_of_finish (List.forall_mem_nil _) hf) h

theorem mem_next_of_finishAll (h : l.finishAll = .error k) : k ∈ l.next k := by
  obtain ⟨n, -, f, hf⟩ := Except.exists_of_foldlM_eq_error h
  exact mem_next_of_finish hf

end Prereq.Links
