import Prereq.Proofs.Requirement.Pathways
import Prereq.Proofs.Requirement.Reading

/-!
# Combining pathways

Under either connective the pathways of the parts combine associatively, and no pathways at all are
the identity.

* `Pathway.product_of_ne_nil`, `Pathway.product_assoc` : the product of pathway lists;
* `Pathway.combine` : two lists of pathways under a connective, an associative operation with
  identity `[]`; `Pathway.map_combine` : a map of pathways that respects `++` respects it;
* `Requirement.pathways_group_cons`, `Requirement.pathways_group_append` : a group, part by part;
* `Requirement.pathways_append`, `Requirement.pathwaysOf_join` : joining requirements combines their
  pathways.
-/

namespace Prereq

/-! ## Lists of pathways -/

namespace Pathway

@[simp] theorem product_nil (ps : List Pathway) : product ps [] = ps := by cases ps <;> rfl

@[simp] theorem nil_product (ps : List Pathway) : product [] ps = ps := rfl

/-- Beyond the empty list the product takes each pathway with each. -/
theorem product_of_ne_nil {ps qs : List Pathway} (hp : ps ≠ []) (hq : qs ≠ []) :
    product ps qs = ps.flatMap fun p => qs.map (p ++ ·) := by
  obtain ⟨p, ps, rfl⟩ := List.exists_cons_of_ne_nil hp
  obtain ⟨q, qs, rfl⟩ := List.exists_cons_of_ne_nil hq
  exact product_cons_cons p q ps qs

theorem product_assoc (ps qs rs : List Pathway) :
    product (product ps qs) rs = product ps (product qs rs) := by
  by_cases hp : ps = []
  · rw [hp, nil_product, nil_product]
  by_cases hq : qs = []
  · rw [hq, product_nil, nil_product]
  by_cases hr : rs = []
  · rw [hr, product_nil, product_nil]
  have hpq : product ps qs ≠ [] := fun h => hp (product_eq_nil_iff.1 h).1
  have hqr : product qs rs ≠ [] := fun h => hr (product_eq_nil_iff.1 h).2
  rw [product_of_ne_nil hpq hr, product_of_ne_nil hp hqr, product_of_ne_nil hp hq,
    product_of_ne_nil hq hr]
  simp only [List.flatMap_assoc, List.flatMap_map, List.map_flatMap, List.map_map,
    Function.comp_def, List.append_assoc]

/-- Two lists of pathways under a connective. -/
def combine : Connective → List Pathway → List Pathway → List Pathway
  | .all => product
  | .any => (· ++ ·)

instance (c : Connective) : Std.Associative (combine c) where
  assoc := by
    cases c with
    | all => exact product_assoc
    | any => exact List.append_assoc

instance (c : Connective) : Std.LawfulIdentity (combine c) [] where
  left_id := by
    cases c with
    | all => exact nil_product
    | any => exact List.nil_append
  right_id := by
    cases c with
    | all => exact product_nil
    | any => exact List.append_nil

theorem combine_assoc (c : Connective) (ps qs rs : List Pathway) :
    combine c (combine c ps qs) rs = combine c ps (combine c qs rs) :=
  Std.Associative.assoc ps qs rs

@[simp] theorem combine_nil (c : Connective) (ps : List Pathway) : combine c ps [] = ps :=
  Std.LawfulRightIdentity.right_id ps

@[simp] theorem nil_combine (c : Connective) (ps : List Pathway) : combine c [] ps = ps :=
  Std.LawfulLeftIdentity.left_id ps

section Map

variable {f : Pathway → Pathway} (hf : ∀ p q, f (p ++ q) = f p ++ f q)
include hf

theorem map_product (ps qs : List Pathway) :
    (product ps qs).map f = product (ps.map f) (qs.map f) := by
  by_cases hp : ps = []
  · rw [hp, nil_product, List.map_nil, nil_product]
  by_cases hq : qs = []
  · rw [hq, product_nil, List.map_nil, product_nil]
  rw [product_of_ne_nil hp hq, product_of_ne_nil (by simpa using hp) (by simpa using hq),
    List.map_flatMap, List.flatMap_map]
  simp only [List.map_map, Function.comp_def, hf]

/-- What is done to each node of a pathway by itself may be done before pathways are combined. -/
theorem map_combine (c : Connective) (ps qs : List Pathway) :
    (combine c ps qs).map f = combine c (ps.map f) (qs.map f) := by
  cases c with
  | all => exact map_product hf ps qs
  | any => exact List.map_append

end Map

end Pathway

open Pathway

/-! ## Groups and joins -/

namespace Requirement

variable {c : Connective}

theorem combinePathways_eq_foldl (c : Connective) (pss : List (List Pathway)) :
    combinePathways c pss = pss.foldl (combine c) [] := by
  cases c with
  | all => rfl
  | any =>
    have hfold : pss.foldl (· ++ id ·) [] = [] ++ (pss.map id).flatten :=
      List.foldl_append_eq_append
    rw [List.map_id, List.nil_append] at hfold
    exact hfold.symm

theorem pathways_group_nil (c : Connective) : (group c []).pathways = [] := by
  cases c <;> rfl

theorem pathways_group_cons (c : Connective) (p : Requirement) (parts : List Requirement) :
    (group c (p :: parts)).pathways = combine c p.pathways (group c parts).pathways := by
  have hassoc : (parts.map pathways).foldl (combine c) (combine c p.pathways []) =
      combine c p.pathways ((parts.map pathways).foldl (combine c) []) := List.foldl_assoc
  rw [combine_nil] at hassoc
  rw [pathways_group, pathways_group, combinePathways_eq_foldl, combinePathways_eq_foldl,
    List.map_cons, List.foldl_cons, nil_combine, hassoc]

theorem pathways_group_append (c : Connective) (parts qs : List Requirement) :
    (group c (parts ++ qs)).pathways =
      combine c (group c parts).pathways (group c qs).pathways := by
  induction parts with
  | nil => rw [List.nil_append, pathways_group_nil, nil_combine]
  | cons p parts ih =>
    rw [List.cons_append, pathways_group_cons, ih, pathways_group_cons, combine_assoc]

theorem pathways_group_singleton (c : Connective) (p : Requirement) :
    (group c [p]).pathways = p.pathways := by
  rw [pathways_group_cons, pathways_group_nil, combine_nil]

theorem pathways_append (c : Connective) (p q : Requirement) :
    (p.append c q).pathways = combine c p.pathways q.pathways := by
  by_cases hc : p.connective? = some c
  · obtain ⟨parts, rfl⟩ := exists_eq_group hc
    rw [append_group, pathways_group_append, pathways_group_singleton]
  · rw [append_of_ne hc, pathways_group_cons, pathways_group_singleton]

@[simp] theorem pathwaysOf_none : pathwaysOf none = [] := rfl

@[simp] theorem pathwaysOf_some (r : Requirement) : pathwaysOf (some r) = r.pathways := rfl

theorem pathwaysOf_join (c : Connective) (x y : Option Requirement) :
    pathwaysOf (join c x y) = combine c (pathwaysOf x) (pathwaysOf y) := by
  cases x with
  | none => exact (nil_combine c _).symm
  | some p =>
    cases y with
    | none => exact (combine_nil c _).symm
    | some q => exact pathways_append c p q

end Requirement

end Prereq
