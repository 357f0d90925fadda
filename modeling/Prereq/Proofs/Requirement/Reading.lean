import Prereq.Proofs.Requirement.Shape
import Prereq.Proofs.Token.Nodes
import Prereq.Requirement.Reader

/-!
# What the reader builds

* `Reading.OfParts` : every requirement that a reading holds has some property;
* `Reading.OfParts.step`, `Reading.OfParts.run` : a property of nodes that appending preserves is
  kept by one token, and by any tokens;
* `Requirement.Gathered` : the shape of what is read, in which every group has two parts or more;
* `Requirement.gathered_of_read?` : every requirement that is read has it.
-/

namespace Prereq

variable {P : Requirement → Prop}

namespace Requirement

/-! ## Appending -/

theorem append_of_ne {c : Connective} {p : Requirement} (h : p.connective? ≠ some c)
    (q : Requirement) : p.append c q = group c [p, q] := by
  cases p with
  | node n => rfl
  | group d parts =>
    have hd : d ≠ c := fun e => h (e ▸ rfl)
    rw [append, if_neg hd]

theorem append_group (c : Connective) (parts : List Requirement) (q : Requirement) :
    (group c parts).append c q = group c (parts ++ [q]) := by
  rw [append, if_pos rfl]

end Requirement

/-! ## Readings -/

namespace Reading

/-- What a level holds has property `P`. -/
structure Level.OfParts (P : Requirement → Prop) (l : Level) : Prop where
  before : ∀ x ∈ l.before, P x
  current : ∀ x ∈ l.current, P x

/-- What a reading holds has property `P`. -/
structure OfParts (P : Requirement → Prop) (s : Reading) : Prop where
  inner : s.inner.OfParts P
  outer : ∀ l ∈ s.outer, l.OfParts P

theorem Level.ofParts_start : Level.start.OfParts P := ⟨nofun, nofun⟩

theorem ofParts_join {c : Connective} (append : ∀ x y, P x → P y → P (x.append c y))
    {x y : Option Requirement} (hx : ∀ z ∈ x, P z) (hy : ∀ z ∈ y, P z) :
    ∀ z ∈ Requirement.join c x y, P z := by
  cases x with
  | none => exact hy
  | some x =>
    cases y with
    | none => exact hx
    | some y =>
      rintro _ ⟨⟩
      exact append x y (hx x rfl) (hy y rfl)

section

variable (append : ∀ c x y, P x → P y → P (x.append c y))

include append

theorem Level.OfParts.value {l : Level} (h : l.OfParts P) : ∀ x ∈ l.value, P x :=
  ofParts_join (append .any) h.before h.current

theorem Level.OfParts.operand {l : Level} (h : l.OfParts P) {r : Option Requirement}
    (hr : ∀ x ∈ r, P x) : (l.operand r).OfParts P :=
  ⟨h.before, ofParts_join (append .all) h.current hr⟩

theorem Level.OfParts.connective {l : Level} (h : l.OfParts P) (c : Connective) :
    (l.connective c).OfParts P := by
  cases c with
  | all => exact ⟨h.before, h.current⟩
  | any =>
    by_cases hdue : l.due
    · rw [Level.connective, if_pos hdue]
      exact h
    · rw [Level.connective, if_neg hdue]
      exact ⟨h.value append, nofun⟩

/-- One token keeps the property. -/
theorem OfParts.step {s : Reading} (node : ∀ n, P (.node n)) (h : s.OfParts P) (t : Token) :
    (s.step t).OfParts P := by
  cases t with
  | opening => exact ⟨Level.ofParts_start, List.forall_mem_cons.2 ⟨h.inner, h.outer⟩⟩
  | closing =>
    obtain ⟨inner, outer⟩ := s
    cases outer with
    | nil => exact h
    | cons l outer =>
      obtain ⟨hl, hrest⟩ := List.forall_mem_cons.1 h.outer
      exact ⟨hl.operand append (h.inner.value append), hrest⟩
  | connective c => exact ⟨h.inner.connective append c, h.outer⟩
  | node n =>
    refine ⟨h.inner.operand append ?_, h.outer⟩
    rintro _ ⟨⟩
    exact node n

theorem OfParts.run {s : Reading} (node : ∀ n, P (.node n)) (h : s.OfParts P) (ts : List Token) :
    (s.run ts).OfParts P := by
  induction ts generalizing s with
  | nil => exact h
  | cons t ts ih => exact ih (h.step append node t)

theorem OfParts.finish {s : Reading} (h : s.OfParts P) : ∀ x ∈ s.finish, P x := by
  obtain ⟨inner, outer⟩ := s
  obtain ⟨hinner, houter⟩ := h
  refine Level.OfParts.value append ?_
  show (outer.foldl _ inner).OfParts P
  induction outer generalizing inner with
  | nil => exact hinner
  | cons l outer ih =>
    obtain ⟨hl, hrest⟩ := List.forall_mem_cons.1 houter
    exact ih _ (hl.operand append (hinner.value append)) hrest

end

end Reading

namespace Requirement

/-- What holds of nodes and is preserved by appending holds of everything that is read. -/
theorem forall_of_ofTokens? (node : ∀ n, P (.node n))
    (append : ∀ c x y, P x → P y → P (x.append c y)) (ts : List Token) :
    ∀ x ∈ ofTokens? ts, P x := by
  have hstart : Reading.start.OfParts P := ⟨Reading.Level.ofParts_start, nofun⟩
  exact (hstart.run append node ts).finish append

/-! ## The nodes of what is read -/

/-- The nodes of a requirement that may be missing. -/
def leavesOf (r : Option Requirement) : List Node := (r.map leaves).getD []

theorem leaves_append (c : Connective) (x y : Requirement) :
    (x.append c y).leaves = x.leaves ++ y.leaves := by
  cases x with
  | node n => simp [append]
  | group d parts => by_cases hd : d = c <;> simp [append, hd]

theorem leavesOf_join (c : Connective) (x y : Option Requirement) :
    leavesOf (join c x y) = leavesOf x ++ leavesOf y := by
  cases x with
  | none => rfl
  | some x =>
    cases y with
    | none => exact (List.append_nil _).symm
    | some y => exact leaves_append c x y

end Requirement

namespace Reading

open Requirement

/-- The nodes read of a level, in order. -/
def Level.nodes (l : Level) : List Node := leavesOf l.before ++ leavesOf l.current

/-- The nodes read so far, in order. -/
def nodes (s : Reading) : List Node := s.outer.reverse.flatMap Level.nodes ++ s.inner.nodes

theorem Level.leavesOf_value (l : Level) : leavesOf l.value = l.nodes := leavesOf_join .any _ _

theorem Level.nodes_operand (l : Level) (r : Option Requirement) :
    (l.operand r).nodes = l.nodes ++ leavesOf r := by
  rw [Level.nodes, Level.operand, leavesOf_join, Level.nodes, List.append_assoc]

theorem Level.nodes_connective (l : Level) (c : Connective) : (l.connective c).nodes = l.nodes := by
  cases c with
  | all => rfl
  | any =>
    by_cases hdue : l.due
    · rw [Level.connective, if_pos hdue]
    · rw [Level.connective, if_neg hdue, Level.nodes, Level.leavesOf_value]
      exact List.append_nil _

theorem nodes_step (s : Reading) (t : Token) :
    (s.step t).nodes = s.nodes ++ (Token.node? t).toList := by
  obtain ⟨inner, outer⟩ := s
  cases t with
  | opening =>
    rw [step, nodes, List.reverse_cons, List.flatMap_append, List.flatMap_singleton]
    rfl
  | closing =>
    cases outer with
    | nil => exact (List.append_nil _).symm
    | cons l outer =>
      show outer.reverse.flatMap Level.nodes ++ (l.operand inner.value).nodes =
        (l :: outer).reverse.flatMap Level.nodes ++ inner.nodes ++ []
      rw [Level.nodes_operand, Level.leavesOf_value, List.reverse_cons, List.flatMap_append,
        List.flatMap_singleton, List.append_nil, List.append_assoc]
  | connective c =>
    rw [step, nodes, Level.nodes_connective]
    exact (List.append_nil _).symm
  | node n =>
    rw [step, nodes, Level.nodes_operand, nodes, List.append_assoc]
    rfl

theorem nodes_run (s : Reading) (ts : List Token) : (s.run ts).nodes = s.nodes ++ Token.nodes ts := by
  induction ts generalizing s with
  | nil => exact (List.append_nil _).symm
  | cons t ts ih =>
    have hcons : Token.nodes (t :: ts) = (Token.node? t).toList ++ Token.nodes ts := by
      cases t <;> rfl
    rw [run, List.foldl_cons, hcons, ← List.append_assoc, ← nodes_step]
    exact ih (s.step t)

theorem leavesOf_finish (s : Reading) : leavesOf s.finish = s.nodes := by
  obtain ⟨inner, outer⟩ := s
  induction outer generalizing inner with
  | nil => exact Level.leavesOf_value inner
  | cons l outer ih =>
    refine (ih (l.operand inner.value)).trans ?_
    rw [nodes, nodes, Level.nodes_operand, Level.leavesOf_value, List.reverse_cons,
      List.flatMap_append, List.flatMap_singleton, List.append_assoc]

/-! ## Other nodes -/

/-- A level with other nodes. -/
def Level.mapNodes (f : Node → Node) (l : Level) : Level :=
  ⟨l.before.map (Requirement.mapNodes f), l.current.map (Requirement.mapNodes f), l.due⟩

/-- A reading with other nodes. -/
def mapNodes (f : Node → Node) (s : Reading) : Reading :=
  ⟨s.inner.mapNodes f, s.outer.map (Level.mapNodes f)⟩

theorem mapNodes_append (f : Node → Node) (c : Connective) (x y : Requirement) :
    (x.append c y).mapNodes f = (x.mapNodes f).append c (y.mapNodes f) := by
  cases x with
  | node n => simp [Requirement.append]
  | group d parts => by_cases hd : d = c <;> simp [Requirement.append, hd]

theorem map_join (f : Node → Node) (c : Connective) (x y : Option Requirement) :
    (join c x y).map (Requirement.mapNodes f) =
      join c (x.map (Requirement.mapNodes f)) (y.map (Requirement.mapNodes f)) := by
  cases x with
  | none => rfl
  | some x =>
    cases y with
    | none => rfl
    | some y => exact congrArg some (mapNodes_append f c x y)

theorem Level.mapNodes_value (f : Node → Node) (l : Level) :
    (l.mapNodes f).value = l.value.map (Requirement.mapNodes f) := (map_join f .any _ _).symm

theorem Level.mapNodes_operand (f : Node → Node) (l : Level) (r : Option Requirement) :
    (l.mapNodes f).operand (r.map (Requirement.mapNodes f)) = (l.operand r).mapNodes f := by
  rw [Level.operand, Level.operand, Level.mapNodes, Level.mapNodes, map_join]

theorem Level.mapNodes_connective (f : Node → Node) (l : Level) (c : Connective) :
    (l.mapNodes f).connective c = (l.connective c).mapNodes f := by
  cases c with
  | all => rfl
  | any =>
    have hdue : (l.mapNodes f).due = l.due := rfl
    rw [Level.connective, Level.connective, hdue, Level.mapNodes_value]
    split <;> rfl

theorem mapNodes_step (f : Node → Node) (s : Reading) (t : Token) :
    (s.mapNodes f).step (t.mapNode f) = (s.step t).mapNodes f := by
  obtain ⟨inner, outer⟩ := s
  cases t with
  | opening => rfl
  | closing =>
    cases outer with
    | nil => rfl
    | cons l outer =>
      have hoperand := Level.mapNodes_operand f l inner.value
      rw [← Level.mapNodes_value] at hoperand
      exact congrArg (Reading.mk · (outer.map (Level.mapNodes f))) hoperand
  | connective c =>
    exact congrArg (Reading.mk · (outer.map (Level.mapNodes f))) (Level.mapNodes_connective f inner c)
  | node n =>
    exact congrArg (Reading.mk · (outer.map (Level.mapNodes f)))
      (Level.mapNodes_operand f inner (some (.node n)))

theorem mapNodes_run (f : Node → Node) (s : Reading) (ts : List Token) :
    (s.mapNodes f).run (ts.map (Token.mapNode f)) = (s.run ts).mapNodes f := by
  induction ts generalizing s with
  | nil => rfl
  | cons t ts ih =>
    rw [List.map_cons, run, List.foldl_cons, mapNodes_step]
    exact ih (s.step t)

theorem mapNodes_finish (f : Node → Node) (s : Reading) :
    (s.mapNodes f).finish = s.finish.map (Requirement.mapNodes f) := by
  obtain ⟨inner, outer⟩ := s
  induction outer generalizing inner with
  | nil => exact Level.mapNodes_value f inner
  | cons l outer ih =>
    have hoperand := Level.mapNodes_operand f l inner.value
    rw [← Level.mapNodes_value] at hoperand
    have hstep : (mapNodes f ⟨inner, l :: outer⟩).finish =
        (mapNodes f ⟨l.operand inner.value, outer⟩).finish :=
      congrArg (fun l' => Reading.finish ⟨l', outer.map (Level.mapNodes f)⟩) hoperand
    rw [hstep, ih]
    rfl

end Reading

namespace Requirement

/-- The nodes of what is read are the nodes that the tokens name, in order. -/
theorem leavesOf_ofTokens? (ts : List Token) : leavesOf (ofTokens? ts) = Token.nodes ts := by
  rw [ofTokens?, Reading.leavesOf_finish, Reading.nodes_run]
  rfl

/-- The reader does not look at nodes. -/
theorem ofTokens?_map (f : Node → Node) (ts : List Token) :
    ofTokens? (ts.map (Token.mapNode f)) = (ofTokens? ts).map (mapNodes f) := by
  rw [ofTokens?, ofTokens?, ← Reading.mapNodes_finish, ← Reading.mapNodes_run]
  rfl

/-! ## The shape of what is read -/

variable {c : Connective} {r : Requirement} {parts : List Requirement}

/-- Every group has two parts or more, the first of them no group of its own connective. -/
def Gathered (r : Requirement) : Prop := ∀ c parts, Within (.group c parts) r →
  2 ≤ parts.length ∧ ∀ p ∈ parts.head?, p.connective? ≠ some c

theorem gathered_node (n : Node) : (Requirement.node n).Gathered := by
  intro c parts h
  cases h

theorem gathered_group : (group c parts).Gathered ↔
    (2 ≤ parts.length ∧ ∀ p ∈ parts.head?, p.connective? ≠ some c) ∧ ∀ p ∈ parts, p.Gathered := by
  constructor
  · exact fun h => ⟨h c parts (.refl _), fun p hp d qs hw => h d qs (.part hp hw)⟩
  · rintro ⟨hgroup, h⟩ d qs hw
    rcases within_group_iff.1 hw with heq | ⟨p, hp, hw⟩
    · cases heq
      exact hgroup
    · exact h p hp d qs hw

theorem Gathered.filled (h : r.Gathered) : r.Filled := by
  intro c parts hw hnil
  have hlen := (h c parts hw).1
  rw [hnil] at hlen
  cases hlen

theorem gathered_append (c : Connective) {x y : Requirement} (hx : x.Gathered) (hy : y.Gathered) :
    (x.append c y).Gathered := by
  by_cases hc : x.connective? = some c
  · obtain ⟨parts, rfl⟩ := exists_eq_group hc
    obtain ⟨⟨hlen, hhead⟩, hparts⟩ := gathered_group.1 hx
    rw [append_group]
    refine gathered_group.2 ⟨⟨?_, ?_⟩, ?_⟩
    · rw [List.length_append]
      omega
    · cases parts with
      | nil => cases hlen
      | cons p parts => exact hhead
    · intro p hp
      rcases List.mem_append.1 hp with hp | hp
      · exact hparts p hp
      · rwa [List.mem_singleton.1 hp]
  · rw [append_of_ne hc]
    refine gathered_group.2 ⟨⟨Nat.le_refl 2, fun p hp => ?_⟩, by simp [hx, hy]⟩
    cases hp
    exact hc

theorem gathered_of_read? {s : String} (h : read? s = some r) : r.Gathered :=
  forall_of_ofTokens? gathered_node (fun c _ _ => gathered_append c) _ r h

end Requirement

end Prereq
