import BlockGraph.Proofs.Unification.Families
import BlockGraph.Proofs.Unification.Literals

/-!
# Types that are equal up to renaming

`alphaEq` compares two types place by place.  It holds just if one renaming, which
keeps the variables of the first type apart, makes the first type the second
(`alphaEq_iff`).  In that form it carries over to what is made of the types, and two
such types have the same instances.
-/

namespace BlockGraph
namespace TyTerm

variable {ν μ : Type}

theorem leaves_map (f : ν → μ) (t : TyTerm ν) : (t.map f).leaves = t.leaves.map f := by
  induction t with
  | var v => rfl
  | lit name args ih =>
    rw [map_lit, leaves_lit, leaves_lit, List.map_flatMap, List.flatMap_map]
    simp only [List.flatMap_def]
    rw [List.map_congr_left ih]
  | fn domain codomain ihd ihc => rw [map_fn, leaves_fn, leaves_fn, List.map_append, ihd, ihc]

theorem length_leaves_of_form {a : TyTerm ν} {b : TyTerm μ}
    (h : a.map (fun _ => ()) = b.map fun _ => ()) : a.leaves.length = b.leaves.length := by
  have hleaves := congrArg (List.length ∘ leaves) h
  simpa only [Function.comp, leaves_map, List.length_map] using hleaves

/-- A renaming that is right at every place makes one type the other. -/
theorem map_eq_of_form {f : ν → μ} {a : TyTerm ν} {b : TyTerm μ}
    (h : a.map (fun _ => ()) = b.map fun _ => ()) (hf : ∀ p ∈ a.leaves.zip b.leaves, f p.1 = p.2) :
    a.map f = b := by
  induction a generalizing b with
  | var v =>
    cases b with
    | var w => exact congrArg var (hf (v, w) (List.mem_singleton_self _))
    | lit name args => simp at h
    | fn domain codomain => simp at h
  | lit name args ih =>
    cases b with
    | var w => simp at h
    | fn domain codomain => simp at h
    | lit name' args' =>
      simp only [map_lit, lit.injEq] at h
      obtain ⟨rfl, h⟩ := h
      rw [map_lit]
      congr 1
      rw [leaves_lit, leaves_lit] at hf
      induction args generalizing args' with
      | nil => rw [List.map_nil, List.map_eq_nil_iff.mp h.symm]
      | cons t rest ihr =>
        cases args' with
        | nil => cases h
        | cons t' rest' =>
          rw [List.map_cons, List.map_cons, List.cons.injEq] at h
          rw [List.flatMap_cons, List.flatMap_cons,
            List.zip_append (length_leaves_of_form h.1)] at hf
          rw [List.map_cons,
            ih t List.mem_cons_self h.1 fun p hp => hf p (List.mem_append_left _ hp),
            ihr (fun u hu => ih u (List.mem_cons_of_mem t hu)) rest' h.2
              fun p hp => hf p (List.mem_append_right _ hp)]
  | fn domain codomain ihd ihc =>
    cases b with
    | var w => simp at h
    | lit name args => simp at h
    | fn domain' codomain' =>
      simp only [map_fn, fn.injEq] at h
      rw [leaves_fn, leaves_fn, List.zip_append (length_leaves_of_form h.1)] at hf
      rw [map_fn, ihd h.1 fun p hp => hf p (List.mem_append_left _ hp),
        ihc h.2 fun p hp => hf p (List.mem_append_right _ hp)]

/-- A renaming that keeps the variables of the first type apart makes it the second. -/
def RenamesTo (a b : Ty) : Prop :=
  ∃ f : TyVar → TyVar, (∀ v ∈ a.leaves, ∀ w ∈ a.leaves, f v = f w → v = w) ∧ a.map f = b

theorem oneToOne_iff [DecidableEq ν] [DecidableEq μ] {pairs : List (ν × μ)} :
    oneToOne pairs = true ↔ ∀ p ∈ pairs, ∀ q ∈ pairs, p.1 = q.1 ↔ p.2 = q.2 := by
  simp [oneToOne]

theorem mem_zip_map {f : ν → μ} {vs : List ν} {p : ν × μ} (hp : p ∈ vs.zip (vs.map f)) :
    p.1 ∈ vs ∧ p.2 = f p.1 := by
  obtain ⟨k, hk, rfl⟩ := List.mem_iff_getElem.mp hp
  simp only [List.getElem_zip, List.getElem_map, List.getElem_mem, and_self]

theorem exists_mem_zip {vs : List ν} {ws : List μ} (h : vs.length = ws.length) {v : ν}
    (hv : v ∈ vs) : ∃ w, (v, w) ∈ vs.zip ws := by
  obtain ⟨k, hk, rfl⟩ := List.mem_iff_getElem.mp hv
  refine ⟨ws[k], List.mem_iff_getElem.mpr ⟨k, ?_, List.getElem_zip⟩⟩
  rwa [List.length_zip, ← h, Nat.min_self]

theorem alphaEq_iff {a b : Ty} : a.alphaEq b = true ↔ a.RenamesTo b := by
  rw [alphaEq, Bool.and_eq_true, decide_eq_true_eq, oneToOne_iff]
  constructor
  · rintro ⟨hform, hone⟩
    -- The pairs of variables at the same places are the graph of the renaming.
    have hex : ∀ v ∈ a.leaves, ∃ w, (v, w) ∈ a.leaves.zip b.leaves := fun v hv =>
      exists_mem_zip (length_leaves_of_form hform) hv
    choose! f hf using hex
    refine ⟨f, fun v hv w hw hvw => (hone _ (hf v hv) _ (hf w hw)).mpr hvw,
      map_eq_of_form hform fun p hp => ?_⟩
    exact (hone _ (hf p.1 (List.of_mem_zip hp).1) p hp).mp rfl
  · rintro ⟨f, hf, rfl⟩
    refine ⟨(map_map f (fun _ => ()) a).symm, fun p hp q hq => ?_⟩
    rw [leaves_map] at hp hq
    obtain ⟨hp, hpf⟩ := mem_zip_map hp
    obtain ⟨hq, hqf⟩ := mem_zip_map hq
    rw [hpf, hqf]
    exact ⟨fun h => congrArg f h, hf _ hp _ hq⟩

namespace RenamesTo

variable {a b : Ty}

theorem refl (a : Ty) : a.RenamesTo a :=
  ⟨id, fun _ _ _ _ h => h, bind_self a⟩

theorem renameLiteral (h : a.RenamesTo b) (old new : String) :
    (a.renameLiteral old new).RenamesTo (b.renameLiteral old new) := by
  obtain ⟨f, hf, rfl⟩ := h
  refine ⟨f, ?_, (renameLiteral_map old new f a).symm⟩
  rwa [leaves_renameLiteral]

theorem trans {c : Ty} (h : a.RenamesTo b) (h' : b.RenamesTo c) : a.RenamesTo c := by
  obtain ⟨f, hf, rfl⟩ := h
  obtain ⟨g, hg, rfl⟩ := h'
  refine ⟨g ∘ f, fun v hv w hw hvw => hf v hv w hw (hg _ ?_ _ ?_ hvw), (map_map f g a).symm⟩
  · exact mem_leaves_map_iff.mpr ⟨v, hv, rfl⟩
  · exact mem_leaves_map_iff.mpr ⟨w, hw, rfl⟩

theorem rel_refl (a : Option Ty) : Option.Rel RenamesTo a a := by
  cases a with
  | none => exact .none
  | some a => exact .some (.refl a)

theorem arity_eq (h : a.RenamesTo b) : b.arity = a.arity := by
  obtain ⟨f, _, rfl⟩ := h
  rw [← length_uncurry, uncurry_map, List.length_map, length_uncurry]

theorem rel_arity_eq {a b : Option Ty} (h : Option.Rel RenamesTo a b) :
    b.map arity = a.map arity := by
  cases h with
  | none => rfl
  | some h => rw [Option.map_some, Option.map_some, h.arity_eq]

end RenamesTo

end TyTerm
end BlockGraph
