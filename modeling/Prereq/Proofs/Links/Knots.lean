import Mathlib.Data.List.Chain
import Prereq.Proofs.Links.Circles

/-!
# Where a circle is entered

* `Links.ClosedWalk` : a walk along links that ends where it starts; its nodes form a knot
  (`ClosedWalk.knot`), and are the nodes of circles (`onCircle_iff_closedWalk`);
* `Links.Opens` : a node is the first one of a set that is met; `Links.exists_opens` : there is one;
  `Links.opens_of_sources_eq` : it is the first source of the set, if none before leads to the set;
* `Links.Knot.exists_isAncestor` : in every knot there is a node for which all of its nodes are
  recorded: the one that is met first.

Which circles the nodes of the knot share with others plays no part in that. The entries of the
others stop short at nodes that are still being followed.
-/

namespace Prereq.Links

open Ancestors

variable {l : Links} {Z : Node → Prop} {path ns walk : List Node} {a b c : Ancestors} {n m : Node}

/-! ## Closed walks -/

/-- A walk along one or more links, back to where it starts. -/
structure ClosedWalk (l : Links) (walk : List Node) : Prop where
  chain : walk.IsChain l.Step
  moves : 2 ≤ walk.length
  closed : walk.head? = walk.getLast?

theorem ClosedWalk.exists_eq (h : l.ClosedWalk walk) : ∃ n ns, walk = n :: (ns ++ [n]) := by
  obtain ⟨-, hmoves, hclosed⟩ := h
  match walk with
  | n :: m :: rest =>
    refine ⟨n, (m :: rest).dropLast, ?_⟩
    have hlast : n = (m :: rest).getLast (List.cons_ne_nil m rest) := by
      simpa [List.getLast?_eq_getLast_of_ne_nil] using hclosed
    conv_lhs => rw [← List.dropLast_append_getLast (List.cons_ne_nil m rest), ← hlast]

/-- A transitive relation of earlier to later members of a closed list holds between any two of its
members. -/
theorem forall_of_pairwise_closed {R : Node → Node → Prop} [IsTrans Node R]
    (hwalk : walk = n :: (ns ++ [n])) (h : walk.Pairwise R) : ∀ x ∈ walk, ∀ y ∈ walk, R x y := by
  subst hwalk
  obtain ⟨hfrom, hrest⟩ := List.pairwise_cons.1 h
  have hto : ∀ x ∈ ns, R x n := fun x hx =>
    (List.pairwise_append.1 hrest).2.2 x hx n (List.mem_singleton_self n)
  have hself : R n n := hfrom n (by simp)
  have hboth : ∀ x ∈ n :: (ns ++ [n]), R n x ∧ R x n := by
    intro x hx
    have hx : x = n ∨ x ∈ ns := by simpa [or_comm, or_assoc] using hx
    rcases hx with rfl | hx
    · exact ⟨hself, hself⟩
    · exact ⟨hfrom x (by simp [hx]), hto x hx⟩
  exact fun x hx y hy => IsTrans.trans x n y (hboth x hx).2 (hboth y hy).1

/-- From each node of a closed walk the walk itself leads to each other one. -/
theorem ClosedWalk.knot (h : l.ClosedWalk walk) : l.Knot (· ∈ walk) := by
  have hchain : walk.IsChain (Relation.TransGen fun x y => x ∈ walk ∧ y ∈ walk ∧ l.Step x y) :=
    (List.IsChain.iff_mem.1 h.chain).imp fun _ _ => Relation.TransGen.single
  obtain ⟨k, ns, hwalk⟩ := h.exists_eq
  exact fun n m hn hm =>
    forall_of_pairwise_closed hwalk (List.isChain_iff_pairwise.1 hchain) n hn m hm

theorem Knot.reaches (hknot : l.Knot Z) (hn : Z n) (hm : Z m) : l.Reaches n m :=
  Relation.TransGen.mono (fun _ _ h => h.2.2) _ _ (hknot n m hn hm)

/-- Two nodes share a circle just if some closed walk goes through both. -/
theorem onCircle_iff_closedWalk :
    l.OnCircle n m ↔ ∃ walk, l.ClosedWalk walk ∧ n ∈ walk ∧ m ∈ walk := by
  constructor
  · rintro ⟨hnm, hmn⟩
    obtain ⟨k, hnk, hkm⟩ := Relation.TransGen.head'_iff.1 hnm
    obtain ⟨there, hthere, hlast⟩ := List.exists_isChain_cons_of_relationReflTransGen hkm
    obtain ⟨back, hback, hlast'⟩ :=
      List.exists_isChain_cons_of_relationReflTransGen hmn.to_reflTransGen
    have hsplit : k :: there = (k :: there).dropLast ++ [m] := by
      conv_lhs => rw [← List.dropLast_append_getLast (List.cons_ne_nil k there), hlast]
    have hchain : (n :: (k :: there).dropLast ++ [m] ++ back).IsChain l.Step := by
      refine List.IsChain.append_overlap ?_ hback (List.cons_ne_nil m [])
      rw [List.cons_append, ← hsplit]
      exact List.IsChain.cons_cons hnk hthere
    refine ⟨_, ⟨hchain, ?_, ?_⟩, by simp, by simp⟩
    · simp only [List.length_append, List.length_cons]
      omega
    · rw [List.append_assoc, List.singleton_append, List.getLast?_append,
        List.getLast?_eq_getLast_of_ne_nil (List.cons_ne_nil m back), hlast']
      simp
  · rintro ⟨walk, hwalk, hn, hm⟩
    exact ⟨hwalk.knot.reaches hn hm, hwalk.knot.reaches hm hn⟩

/-! ## The node of a set that is met first -/

/-- Of the set `Z` the node `s` was met first: it was entered along `path` into the table `a`, which
have no nodes of `Z` among them, and `b` has all entries that were made by then. -/
structure Opens (l : Links) (Z : Node → Prop) (s : Node) (path : List Node) (a b : Ancestors) :
    Prop where
  mem : Z s
  records : l.Records a
  leads : ∀ p ∈ path, l.Reaches p s
  new : ∀ m, Z m → m ∉ path ∧ ¬ a.knows m
  keeps : ∀ k, (l.collect path a s).knows k → b.of? k = (l.collect path a s).of? k

theorem knows_of_of?_eq (h : b.of? n = c.of? n) (hn : c.knows n) : b.knows n := by
  rwa [knows_eq_isSome, h, ← knows_eq_isSome]

/-- The entries are still there in a table that keeps what is known. -/
theorem Opens.mono (h : l.Opens Z m path a b) (keeps : ∀ k, b.knows k → c.of? k = b.of? k) :
    l.Opens Z m path a c :=
  { h with keeps := fun k hk =>
      (keeps k (knows_of_of?_eq (h.keeps k hk) hk)).trans (h.keeps k hk) }

/-- What entering the nodes `ns`, reached along `path`, shows of the set `Z`. -/
structure Opened (l : Links) (Z : Node → Prop) (path ns : List Node) (a b : Ancestors) : Prop
    extends l.Entered path ns a b where
  /-- A node that is being followed gets no entry. -/
  spares : ∀ p ∈ path, b.of? p = a.of? p
  /-- Once a node of the set is known, there is a first one. -/
  opens : ∀ k, Z k → b.knows k →
    (∃ m, Z m ∧ (m ∈ path ∨ a.knows m)) ∨ ∃ s path' a', l.Opens Z s path' a' b

/-- Where nothing is entered, a known node of the set was known before. -/
theorem Entered.opened (h : l.Entered path ns a a) : l.Opened Z path ns a a where
  toEntered := h
  spares _ _ := rfl
  opens k hZ hk := .inl ⟨k, hZ, .inr hk⟩

theorem Opened.cons (hn : l.Opened Z path [n] a b) (hns : l.Opened Z path ns b c) :
    l.Opened Z path (n :: ns) a c where
  toEntered := hn.toEntered.cons hns.toEntered
  spares p hp := (hns.spares p hp).trans (hn.spares p hp)
  opens k hZ hk := by
    rcases hns.opens k hZ hk with ⟨m, hm, hmpath | hmb⟩ | hfirst
    · exact .inl ⟨m, hm, .inl hmpath⟩
    · rcases hn.opens m hm hmb with hmet | ⟨s, path', a', h⟩
      · exact .inl hmet
      · exact .inr ⟨s, path', a', h.mono hns.keeps⟩
    · exact .inr hfirst

theorem foldl_opened {enter : Ancestors → Node → Ancestors}
    (step : ∀ a, ∀ n ∈ ns, l.Records a → l.Opened Z path [n] a (enter a n)) :
    ∀ a, l.Records a → l.Opened Z path ns a (ns.foldl enter a) :=
  foldl_enter (fun _ ha => (entered_nil ha).opened) (fun _ _ _ _ _ => Opened.cons)
    (fun _ _ _ h => h.records) step

/-- The entry of a node leaves the others as they are: the node was being followed till then. -/
theorem insert_gather_keeps (new : ¬ a.knows n) (hb : l.Opened Z (n :: path) ns a b)
    (hm : b.knows m) : (b.insert n (b.gather (l.next n))).of? m = b.of? m := by
  rw [of?_insert, if_neg]
  rintro rfl
  exact new (knows_of_of?_eq (hb.spares n List.mem_cons_self).symm hm)

/-- The first node of the set that is met on entering `n` is `n`, or the first one below it. -/
theorem insert_gather_opened (new : ¬ a.knows n) (off : n ∉ path) (ha : l.Records a)
    (hpath : ∀ p ∈ path, l.Reaches p n) (hb : l.Opened Z (n :: path) (l.next n) a b)
    (hcollect : l.collect path a n = b.insert n (b.gather (l.next n))) :
    l.Opened Z path [n] a (b.insert n (b.gather (l.next n))) where
  toEntered := insert_gather_entered new hpath hb.toEntered
  spares p hp := by
    have hne : n ≠ p := fun h => off (h ▸ hp)
    rw [of?_insert, if_neg hne]
    exact hb.spares p (List.mem_cons_of_mem n hp)
  opens k hZ hk := by
    by_cases hmet : ∃ m, Z m ∧ (m ∈ path ∨ a.knows m)
    · exact .inl hmet
    · refine .inr ?_
      push Not at hmet
      by_cases hZn : Z n
      · exact ⟨n, path, a, hZn, ha, hpath, hmet, fun _ _ => by rw [hcollect]⟩
      · have hne : ∀ m, Z m → m ≠ n := fun m hm h => hZn (h ▸ hm)
        rcases hb.opens k hZ (knows_of_ne hk (hne k hZ).symm) with ⟨m, hm, hmold⟩ | hfirst
        · rw [List.mem_cons, or_iff_right (hne m hm)] at hmold
          exact absurd hmold (not_or.2 (hmet m hm))
        · obtain ⟨s, path', a', h⟩ := hfirst
          exact ⟨s, path', a', h.mono fun _ => insert_gather_keeps new hb⟩

/-- Entering a node along a path that leads to it. -/
theorem collect_opened (path : List Node) (a : Ancestors) (n : Node) (ha : l.Records a)
    (hpath : ∀ p ∈ path, l.Reaches p n) : l.Opened Z path [n] a (l.collect path a n) := by
  have hentered := collect_entered path a n ha hpath
  induction path, a, n using collect_induction (l := l) with
  | met path a n h =>
    rw [collect_of_met h] at hentered ⊢
    exact hentered.opened
  | new path a n hnew hoff ih =>
    have hcollect := collect_of_new (l := l) hnew hoff
    rw [hcollect]
    refine insert_gather_opened hnew hoff ha hpath (foldl_opened (fun b m hm hb => ?_) a ha) hcollect
    have hpath' := reaches_of_mem_cons hpath hm
    exact ih b m hm hb hpath' (collect_entered (n :: path) b m hb hpath')

/-- Of a set that has a source, some node is met first. -/
theorem exists_opens (hn : Z n) (hsource : n ∈ l.sources) :
    ∃ s path a, l.Opens Z s path a l.ancestors := by
  have hopened : l.Opened Z [] l.sources ∅ l.ancestors :=
    foldl_opened (fun a n _ ha => collect_opened [] a n ha (List.forall_mem_nil _)) ∅
      (records_empty l)
  refine (hopened.opens n hn (knows_ancestors_of_mem_sources hsource)).resolve_left ?_
  rintro ⟨m, -, hm | hm⟩
  · cases hm
  · exact not_knows_empty m hm

/-- A source of the set is met first if no source before it is in the set or leads to it. -/
theorem opens_of_sources_eq {before after : List Node} (h : l.sources = before ++ n :: after)
    (hn : Z n) (hbefore : ∀ k ∈ before, ∀ m, Z m → ¬ (k = m ∨ l.Reaches k m)) :
    l.Opens Z n [] (before.foldl (l.collect []) ∅) l.ancestors := by
  have hentered := foldl_collect_entered before ∅ (records_empty l)
  have hafter := foldl_collect_entered after _
    (collect_entered [] _ n hentered.records (List.forall_mem_nil _)).records
  refine ⟨hn, hentered.records, List.forall_mem_nil _, fun m hm => ⟨List.not_mem_nil, fun hk => ?_⟩,
    fun k hk => ?_⟩
  · obtain ⟨k, hk, hkm⟩ := (hentered.only m hk).resolve_left (not_knows_empty m)
    exact hbefore k hk m hm hkm
  · rw [ancestors, h, List.foldl_append, List.foldl_cons]
    exact hafter.keeps k hk

section First

variable {s : Node} (h : l.Opens Z s path a b)

include h

theorem Opens.knows_self : (l.collect path a s).knows s :=
  ((collect_entered path a s h.records h.leads).enters s (List.mem_singleton_self s)).resolve_left
    (h.new s h.mem).1

/-- The first node of a knot gets its entry after the others. -/
theorem Opens.knows (hknot : l.Knot Z) (hm : Z m) : (l.collect path a s).knows m :=
  knows_of_new h.knows_self (collect_swept path a s h.records h.leads).follows h.new hknot h.mem hm

/-- For the first node of a knot all of its nodes are recorded. -/
theorem Opens.isAncestor (hknot : l.Knot Z) (hm : Z m) : b.isAncestor m s := by
  have hswept := collect_swept path a s h.records h.leads
  have hrecorded : (l.collect path a s).isAncestor m s := by
    refine isAncestor_of_new h.knows_self hswept.follows h.new hknot h.mem hm fun k hk => ?_
    refine (hswept.shares k hk).imp_right fun hshares x hx => ?_
    obtain ⟨n, hn, hxn⟩ := hshares x hx
    exact List.mem_singleton.1 hn ▸ hxn
  unfold Ancestors.isAncestor at hrecorded ⊢
  rwa [h.keeps s h.knows_self]

end First

/-- In every knot there is a node for which all of its nodes are recorded. -/
theorem Knot.exists_isAncestor (hknot : l.Knot Z) (hn : Z n) :
    ∃ s, Z s ∧ ∀ m, Z m → l.ancestors.isAncestor m s := by
  obtain ⟨s, path, a, h⟩ := exists_opens hn (hknot.reaches hn hn).mem_sources
  exact ⟨s, h.mem, fun m => h.isAncestor hknot⟩

end Prereq.Links
