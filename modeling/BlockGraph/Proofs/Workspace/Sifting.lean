import BlockGraph.Proofs.Unification.Solver
import BlockGraph.Proofs.Workspace.Typing

/-!
# Solving links one after another

The links of a component are solved in a fixed order.  A link that can be met
together with those accepted before it is accepted, and any other one fails and
leaves no trace.  `Sifted` says this of any list and of any condition on what has
been accepted; `solveLinks_sifted` says that the solver sifts links by whether their
equations have a solution, and ends with a most general solution for those accepted.
-/

namespace BlockGraph

/-! ## Sifting a list -/

/-- The list is gone through from the left.  What fits together with all that was accepted before is
accepted, and the rest fails. -/
inductive Sifted {α : Type} (fits : List α → Prop) :
    (before list accepted failed : List α) → Prop
  | nil {before : List α} : Sifted fits before [] [] []
  | accept {before list accepted failed : List α} {x : α} (hx : fits (before ++ [x]))
      (hrest : Sifted fits (before ++ [x]) list accepted failed) :
      Sifted fits before (x :: list) (x :: accepted) failed
  | fail {before list accepted failed : List α} {x : α} (hx : ¬ fits (before ++ [x]))
      (hrest : Sifted fits before list accepted failed) :
      Sifted fits before (x :: list) accepted (x :: failed)

namespace Sifted

variable {α : Type} {fits fits' : List α → Prop} {before list accepted failed : List α} {x : α}

theorem mem_iff (h : Sifted fits before list accepted failed) :
    x ∈ list ↔ x ∈ accepted ∨ x ∈ failed := by
  induction h with
  | nil => simp
  | accept _ _ ih => rw [List.mem_cons, ih, List.mem_cons, or_assoc]
  | fail _ _ ih => rw [List.mem_cons, ih, List.mem_cons, or_left_comm]

theorem failed_sublist (h : Sifted fits before list accepted failed) : failed.Sublist list := by
  induction h with
  | nil => exact .slnil
  | accept _ _ ih => exact ih.cons _
  | fail _ _ ih => exact ih.cons_cons _

/-- What failed does not fit later either, where what has been accepted only grows. -/
theorem not_fits (h : Sifted fits before list accepted failed)
    (hmono : ∀ l l' : List α, (∀ y ∈ l, y ∈ l') → fits l' → fits l) (hx : x ∈ failed) :
    ¬ fits (before ++ accepted ++ [x]) := by
  induction h with
  | nil => exact absurd hx List.not_mem_nil
  | @accept before list accepted failed y _ _ ih =>
    rw [List.append_cons before y accepted]
    exact ih hx
  | @fail before list accepted failed y hy _ ih =>
    rcases List.mem_cons.mp hx with rfl | hx
    · refine fun hfits => hy (hmono _ _ (fun z hz => ?_) hfits)
      rw [List.append_assoc, List.mem_append, List.mem_append]
      exact (List.mem_append.mp hz).imp_right .inr
    · exact ih hx

/-- Only lists of what has been accepted and what is still to come are looked at. -/
theorem congr (h : Sifted fits before list accepted failed)
    (hfits : ∀ l : List α, (∀ y ∈ l, y ∈ before ∨ y ∈ list) → (fits l ↔ fits' l)) :
    Sifted fits' before list accepted failed := by
  induction h with
  | nil => exact .nil
  | @accept before list accepted failed x hx _ ih =>
    refine .accept ((hfits _ ?_).mp hx) (ih fun l hl => hfits l fun y hy => ?_)
    · grind
    · grind
  | @fail before list accepted failed x hx _ ih =>
    refine .fail (fun hx' => hx ((hfits _ ?_).mpr hx')) (ih fun l hl => hfits l fun y hy => ?_)
    · grind
    · grind

end Sifted

/-! ## Links -/

/-- The error says that types cannot be made equal. -/
def TypeError.IsClash : TypeError → Prop
  | occurs _ _ => True
  | mismatch _ _ _ => True
  | _ => False

def Link.equation (τ : Assignment) (l : Link) : Equation :=
  (τ l.output, τ l.input)

namespace Solver

variable {links : List Link} {s : Solver} {types : SocketId → Option Ty}

theorem empty_image (v : TyVar) : empty.image v = .var v := rfl

private theorem solveLinks_sifted_from {τ : Assignment} {before : List Link}
    (htypes : ∀ l ∈ links, types l.output = some (τ l.output) ∧ types l.input = some (τ l.input))
    (hs : s.Layered) (hbefore : ∀ h, Absorbs h s.image ↔ Solves h (before.map (Link.equation τ))) :
    (s.solveLinks types links).1.Layered ∧
      ∃ accepted,
        Sifted (fun ls => ∃ h, Solves h (ls.map (Link.equation τ))) before links accepted
          ((s.solveLinks types links).2.map Prod.fst) ∧
        ∀ h, Absorbs h (s.solveLinks types links).1.image ↔
          Solves h ((before ++ accepted).map (Link.equation τ)) := by
  induction links generalizing s before with
  | nil => exact ⟨hs, [], .nil, fun h => by rw [solveLinks, List.append_nil, hbefore]⟩
  | cons l rest ih =>
    obtain ⟨hout, hin⟩ := htypes l List.mem_cons_self
    have hrest := fun l' hl' => htypes l' (List.mem_cons_of_mem l hl')
    have hsplit : ∀ h, Solves h ((before ++ [l]).map (Link.equation τ)) ↔
        Solves h (before.map (Link.equation τ)) ∧ (τ l.output).bind h = (τ l.input).bind h := by
      intro h
      rw [List.map_append, solves_append, List.map_singleton, solves_cons,
        and_iff_left (solves_nil h), Link.equation]
    cases hc : s.constrain (τ l.output) (τ l.input) with
    | ok s' =>
      obtain ⟨hs', habsorbs⟩ := constrain_ok hs hc
      have hnext : ∀ h, Absorbs h s'.image ↔ Solves h ((before ++ [l]).map (Link.equation τ)) :=
        fun h => by rw [habsorbs, hbefore, hsplit]
      obtain ⟨hlay, accepted, hsifted, hsolves⟩ := ih hrest hs' hnext
      have heq : s.solveLinks types (l :: rest) = s'.solveLinks types rest := by
        simp only [solveLinks, hout, hin, hc]
      rw [heq]
      refine ⟨hlay, l :: accepted, .accept ⟨s'.image, ?_⟩ hsifted, fun h => ?_⟩
      · exact (hnext _).mp (image_idempotent hs')
      · rw [hsolves, ← List.append_cons]
    | error e =>
      obtain ⟨hlay, accepted, hsifted, hsolves⟩ := ih hrest hs hbefore
      have heq : s.solveLinks types (l :: rest) =
          ((s.solveLinks types rest).1, (l, e) :: (s.solveLinks types rest).2) := by
        simp only [solveLinks, hout, hin, hc]
      rw [heq]
      refine ⟨hlay, accepted, .fail ?_ hsifted, hsolves⟩
      rintro ⟨h, hh⟩
      obtain ⟨hold, hl⟩ := (hsplit h).mp hh
      exact constrain_error hs hc ((hbefore h).mpr hold) hl

/-- The solver sifts links by whether their equations have a solution. -/
theorem solveLinks_sifted {τ : Assignment}
    (htypes : ∀ l ∈ links, types l.output = some (τ l.output) ∧ types l.input = some (τ l.input)) :
    (empty.solveLinks types links).1.Layered ∧
      ∃ accepted,
        Sifted (fun ls => ∃ h, Solves h (ls.map (Link.equation τ))) [] links accepted
          ((empty.solveLinks types links).2.map Prod.fst) ∧
        MostGeneral (empty.solveLinks types links).1.image (accepted.map (Link.equation τ)) := by
  have hempty : ∀ h, Absorbs h empty.image ↔ Solves h (([] : List Link).map (Link.equation τ)) :=
    fun h => iff_of_true (fun v => by rw [empty_image, TyTerm.bind_var]) (solves_nil h)
  obtain ⟨hlay, accepted, hsifted, hsolves⟩ := solveLinks_sifted_from htypes empty_layered hempty
  exact ⟨hlay, accepted, hsifted, image_idempotent hlay, hsolves⟩

theorem solveAll_clash {es : List Equation} {e : TypeError} (h : s.solveAll es = .error e) :
    e.IsClash := by
  induction s, es using solveAll.induct with
  | case1 s =>
    rw [solveAll] at h
    cases h
  | case2 s l r rest v w hcmp ih =>
    rw [solveAll_cons, hcmp] at h
    exact ih h
  | case3 s l r rest v t hcmp hocc =>
    rw [solveAll_cons, hcmp] at h
    simp only [hocc, if_true] at h
    cases h
    exact trivial
  | case4 s l r rest v t hcmp hocc ih =>
    rw [solveAll_cons, hcmp] at h
    simp only [hocc] at h
    exact ih h
  | case5 s l r rest es hcmp ih =>
    rw [solveAll_cons, hcmp] at h
    exact ih h
  | case6 s l r rest kind hcmp =>
    rw [solveAll_cons, hcmp] at h
    cases h
    exact trivial

theorem solveLinks_clash {f : Link × TypeError} (hf : f ∈ (s.solveLinks types links).2) :
    f.2.IsClash := by
  induction links generalizing s with
  | nil => exact absurd hf List.not_mem_nil
  | cons l rest ih =>
    rw [solveLinks] at hf
    split at hf
    · split at hf
      · exact ih hf
      · next hfail =>
        rcases List.mem_cons.mp hf with rfl | hf
        · exact solveAll_clash hfail
        · exact ih hf
    · exact ih hf

end Solver

end BlockGraph
