import Mathlib.Data.Set.Card
import Prereq.Proofs.Links.Finish

/-!
# Walks with a stack

* `Links.workOff` : walk in depth with a stack, on which a node stays until all that was put on top
  of it is gone; a node can stand on it more than once;
* `Links.stackOrder` : the order in which such walks from all sources finish;
* `Links.Follows` : working off a node on top of the stack comes to what `Links.finish` makes of the
  finished nodes (`follows_finish`);
* `Links.stackOrder_eq` : the order is the finishing order.

On the stack a node is found discovered in two cases: everything above it has been worked off, or it
was finished meanwhile. The nodes of the path are below, and none of them is put on the stack again.
-/

namespace Prereq.Links

variable {l : Links} {path discovered finished stack rest ns : List Node} {n k : Node}

/-! ## Working off a stack -/

/-- Put the targets of `n` that are not discovered on a stack, one after the other. It fails if one of
them is `n`. -/
def pushNext (l : Links) (discovered : List Node) (n : Node) (stack : List Node) :
    Except Node (List Node) :=
  (l.next n).foldlM
    (fun stack m =>
      if m = n then .error n else if m ∈ discovered then .ok stack else .ok (m :: stack)) stack

/-- Work off a stack. A node that is not discovered yet stays there, with its targets on top. A
discovered one is taken off and finished, unless it is already. -/
def workOff (l : Links) (discovered finished : List Node) :
    (stack : List Node) → Except Node (List Node × List Node)
  | [] => .ok (discovered, finished)
  | n :: stack =>
    if n ∈ discovered then
      l.workOff discovered (if n ∈ finished then finished else n :: finished) stack
    else
      (l.pushNext (n :: discovered) n (n :: stack)).bind fun stack =>
        l.workOff (n :: discovered) finished stack
termination_by stack => (Set.ncard {m | m ∉ discovered}, stack.length)
decreasing_by
  · exact Prod.Lex.right _ (Nat.lt_succ_self _)
  · refine Prod.Lex.left _ _ (Set.ncard_lt_ncard ?_ (Set.toFinite _))
    exact ⟨fun m hm h => hm (List.mem_cons_of_mem n h), fun h => h ‹n ∉ discovered› List.mem_cons_self⟩

/-- The order in which walks from all sources finish, from last to first, each with a stack of its own;
a discovered source is passed over. -/
def stackOrder (l : Links) : Except Node (List Node) :=
  Prod.snd <$> l.sources.foldlM
    (fun s n => if n ∈ s.1 then .ok s else l.workOff s.1 s.2 [n]) ([], [])

theorem pushNext_eq (l : Links) (discovered : List Node) (n : Node) (stack : List Node) :
    l.pushNext discovered n stack =
      if n ∈ l.next n then .error n
      else .ok ((l.next n).reverse.filter (· ∉ discovered) ++ stack) := by
  unfold pushNext
  generalize l.next n = ns
  induction ns generalizing stack with
  | nil => rfl
  | cons m ns ih =>
    rw [List.foldlM_cons]
    by_cases hm : m = n
    · rw [if_pos hm, if_pos (List.mem_cons.2 (.inl hm.symm))]
      rfl
    · have hmem : n ∈ m :: ns ↔ n ∈ ns := by
        rw [List.mem_cons, or_iff_right (Ne.symm hm)]
      rw [if_neg hm]
      by_cases hdiscovered : m ∈ discovered
      · rw [if_pos hdiscovered]
        refine (ih stack).trans ?_
        simp [hmem, hdiscovered]
      · rw [if_neg hdiscovered]
        refine (ih (m :: stack)).trans ?_
        simp [hmem, hdiscovered]

theorem workOff_of_mem (h : n ∈ discovered) : l.workOff discovered finished (n :: stack) =
    l.workOff discovered (if n ∈ finished then finished else n :: finished) stack := by
  rw [workOff, if_pos h]

theorem workOff_of_new (h : n ∉ discovered) : l.workOff discovered finished (n :: stack) =
    if n ∈ l.next n then .error n
    else l.workOff (n :: discovered) finished
      ((l.next n).reverse.filter (· ∉ n :: discovered) ++ n :: stack) := by
  rw [workOff, if_neg h, pushNext_eq]
  split <;> rfl

/-! ## Following a walk -/

/-- The discovered nodes are those of the path, which are not finished, and the finished ones. -/
structure Discovered (path finished discovered : List Node) : Prop where
  mem_iff : ∀ k, k ∈ discovered ↔ k ∈ path ∨ k ∈ finished
  off : ∀ k ∈ path, k ∉ finished

theorem Discovered.discover (h : Discovered path finished discovered) (hn : n ∉ finished) :
    Discovered (n :: path) finished (n :: discovered) where
  mem_iff k := by rw [List.mem_cons, List.mem_cons, h.mem_iff, or_assoc]
  off := List.forall_mem_cons.2 ⟨hn, h.off⟩

theorem Discovered.finish (h : Discovered (n :: path) finished discovered) (hn : n ∉ path) :
    Discovered path (n :: finished) discovered where
  mem_iff k := by rw [h.mem_iff, List.mem_cons, List.mem_cons, or_assoc, or_left_comm]
  off k hk := by
    rw [List.mem_cons, not_or]
    exact ⟨fun hkn => hn (hkn ▸ hk), h.off k (List.mem_cons_of_mem n hk)⟩

/-- Working off `stack` down to `rest` comes to the finished nodes, or to the failure, that a walk
makes of those that were finished. -/
def Follows (l : Links) (path discovered finished stack rest : List Node) :
    Except Node (List Node) → Prop
  | .error k => l.workOff discovered finished stack = .error k
  | .ok finished' => ∃ discovered', Discovered path finished' discovered' ∧
      discovered ⊆ discovered' ∧
      l.workOff discovered finished stack = l.workOff discovered' finished' rest

/-- What is followed from a later state of the walk is followed from an earlier one. -/
theorem Follows.after {discovered' finished' stack' : List Node} {r : Except Node (List Node)}
    (h : l.Follows path discovered' finished' stack' rest r) (hsub : discovered ⊆ discovered')
    (heq : l.workOff discovered finished stack = l.workOff discovered' finished' stack') :
    l.Follows path discovered finished stack rest r := by
  cases r with
  | error k => exact heq.trans h
  | ok finished'' =>
    obtain ⟨discovered'', hd, hsub', heq'⟩ := h
    exact ⟨discovered'', hd, List.Subset.trans hsub hsub', heq.trans heq'⟩

/-- One part of the stack after the other. The path may end in between. -/
theorem Follows.bind {path' : List Node} {r : Except Node (List Node)}
    {walk : List Node → Except Node (List Node)}
    (h : l.Follows path' discovered finished stack ns r)
    (h' : ∀ discovered' finished', Discovered path' finished' discovered' →
      discovered ⊆ discovered' → l.Follows path discovered' finished' ns rest (walk finished')) :
    l.Follows path discovered finished stack rest (r.bind walk) := by
  cases r with
  | error k => exact h
  | ok finished' =>
    obtain ⟨discovered', hd', hsub, heq⟩ := h
    exact (h' discovered' finished' hd' hsub).after hsub heq

/-- Nodes that were discovered when the others were put on the stack are passed over by a walk too. -/
theorem follows_foldlM {seen : List Node} (hseen : path ⊆ seen) (hsub : seen ⊆ discovered)
    (hd : Discovered path finished discovered)
    (hwalk : ∀ n ∈ ns, n ∉ path → ∀ discovered finished rest, Discovered path finished discovered →
      l.Follows path discovered finished (n :: rest) rest (l.finish path finished n)) :
    l.Follows path discovered finished (ns.filter (· ∉ seen) ++ rest) rest
      (ns.foldlM (l.finish path) finished) := by
  induction ns generalizing discovered finished with
  | nil => exact ⟨discovered, hd, List.Subset.refl _, rfl⟩
  | cons n ns ih =>
    obtain ⟨hn, hns⟩ := List.forall_mem_cons.1 hwalk
    rw [List.foldlM_cons]
    by_cases hnseen : n ∈ seen
    · have hmet : n ∈ finished ∨ n ∈ path := ((hd.mem_iff n).1 (hsub hnseen)).symm
      rw [List.filter_cons_of_neg (by simpa using hnseen), finish_of_met hmet]
      exact ih hsub hd hns
    · rw [List.filter_cons_of_pos (by simpa using hnseen), List.cons_append]
      exact (hn (fun h => hnseen (hseen h)) _ _ _ hd).bind fun discovered' finished' hd' hsub' =>
        ih (List.Subset.trans hsub hsub') hd' hns

/-- A node on top of the stack is worked off as a walk from it would finish. -/
theorem follows_finish (hd : Discovered path finished discovered) (off : n ∉ path) :
    l.Follows path discovered finished (n :: rest) rest (l.finish path finished n) := by
  induction path, finished, n using walk_induction (l := l) generalizing discovered rest with
  | met path f n hmet =>
    have hmem : n ∈ f := hmet.resolve_right off
    rw [finish_of_met hmet]
    refine ⟨discovered, hd, List.Subset.refl _, ?_⟩
    rw [workOff_of_mem ((hd.mem_iff n).2 (.inr hmem)), if_pos hmem]
  | new path f n hnew _ ih =>
    have hfresh : n ∉ discovered := fun h => ((hd.mem_iff n).1 h).elim off hnew
    rw [finish_of_new hnew off]
    by_cases hloop : n ∈ l.next n
    · rw [if_pos hloop]
      show l.workOff discovered f (n :: rest) = .error n
      rw [workOff_of_new hfresh, if_pos hloop]
    · rw [if_neg hloop]
      have hwork : l.workOff discovered f (n :: rest) = l.workOff (n :: discovered) f
          ((l.next n).reverse.filter (· ∉ n :: discovered) ++ n :: rest) := by
        rw [workOff_of_new hfresh, if_neg hloop]
      have hd' : Discovered (n :: path) f (n :: discovered) := hd.discover hnew
      have hchildren : l.Follows (n :: path) (n :: discovered) f
          ((l.next n).reverse.filter (· ∉ n :: discovered) ++ n :: rest) (n :: rest)
          ((l.next n).reverse.foldlM (l.finish (n :: path)) f) :=
        follows_foldlM (fun k hk => (hd'.mem_iff k).2 (.inl hk)) (List.Subset.refl _) hd'
          fun m hm hmoff d g s hdg => ih g m (List.mem_reverse.1 hm) hdg hmoff
      have hrest : l.Follows path (n :: discovered) f
          ((l.next n).reverse.filter (· ∉ n :: discovered) ++ n :: rest) rest
          ((n :: ·) <$> (l.next n).reverse.foldlM (l.finish (n :: path)) f) := by
        rw [map_eq_bind_pure_comp]
        refine hchildren.bind fun d g hdg hsub =>
          ⟨d, hdg.finish off, List.Subset.refl _, ?_⟩
        -- Everything above `n` is gone, and it is found discovered and not finished.
        rw [workOff_of_mem (hsub List.mem_cons_self), if_neg (hdg.off n List.mem_cons_self)]
      exact hrest.after (List.subset_cons_self n _) hwork

/-! ## The order of all nodes -/

/-- Between two walks the stack is empty, and the discovered nodes are the finished ones. -/
theorem map_foldlM_workOff (hd : Discovered [] finished discovered) :
    Prod.snd <$> ns.foldlM (fun s n => if n ∈ s.1 then .ok s else l.workOff s.1 s.2 [n])
      (discovered, finished) = ns.foldlM (l.finish []) finished := by
  induction ns generalizing discovered finished with
  | nil => rfl
  | cons n ns ih =>
    rw [List.foldlM_cons, List.foldlM_cons]
    by_cases hmem : n ∈ discovered
    · have hfinished : n ∈ finished := ((hd.mem_iff n).1 hmem).resolve_left List.not_mem_nil
      rw [if_pos hmem, finish_of_met (.inl hfinished)]
      exact ih hd
    · have hfollows : l.Follows [] discovered finished [n] [] (l.finish [] finished n) :=
        follows_finish hd List.not_mem_nil
      rw [if_neg hmem]
      cases hfinish : l.finish [] finished n with
      | error k =>
        rw [hfinish] at hfollows
        rw [show l.workOff discovered finished [n] = .error k from hfollows]
        rfl
      | ok finished' =>
        rw [hfinish] at hfollows
        obtain ⟨discovered', hd', -, heq⟩ := hfollows
        rw [heq, workOff]
        exact ih hd'

/-- Walks with a stack finish in the finishing order. -/
theorem stackOrder_eq (l : Links) : l.stackOrder = l.finishAll :=
  map_foldlM_workOff ⟨fun _ => by rw [or_iff_right List.not_mem_nil], List.forall_mem_nil _⟩

end Prereq.Links
