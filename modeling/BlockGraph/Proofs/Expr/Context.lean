import BlockGraph.Proofs.Expr.Typing
import BlockGraph.Proofs.Workspace.Invariant

/-!
# Contexts and binding sites

The expression of an output is built inside the bindings of the branches that the
builder came through.  The same branches lie downstream of the output, where the
search for the site of a pattern variable meets them, the innermost first.
`Encloses` is what the two have in common: a name in the context is bound at the
site that the search finds, with the type of that site's field.
-/

namespace BlockGraph

/-- What feeds an input is the output of a node. -/
theorem Graph.exists_feeds {g : Graph} {s o : SocketId} {n : NodeId} {k : Nat} (h : g.WellFormed)
    (hs : g.At s n (.input k)) (hp : g.peer? s = some o) :
    ∃ m, g.At o m .output ∧ g.Wired o s ∧ g.Feeds m n := by
  have hw := ((peer?_eq_some_iff h.links).mp hp).resolve_left (not_wired_input h hs)
  obtain ⟨m, ho⟩ := h.wired_output o s hw
  exact ⟨m, ho, hw, o, s, hw, owner?_eq_some_iff.mpr ⟨_, ho⟩, owner?_eq_some_iff.mpr ⟨_, hs⟩⟩

theorem Build.map_fst_typedNames (r : Registry) (type : String) (branch : Nat)
    (names : List String) : (typedNames r type branch names).map Prod.fst = names := by
  refine List.ext_getElem? fun i => ?_
  rw [typedNames, List.getElem?_map, List.getElem?_mapIdx]
  cases names[i]? <;> rfl

namespace Workspace

variable {ws : Workspace} {g : Graph} {name type : String} {o s : SocketId}
  {seen seen' : List SocketId} {m n : NodeId} {node : Node} {k : Nat} {Γ Δ : Context}
  {scope : Build.Scope}

/-! ## The walk downstream -/

section Walk

variable {rank : NodeId → Nat} (h : g.WellFormed)
  (hrank : ∀ p c, g.Connected n p → g.Feeds p c → rank p < rank c)

include h hrank

/-- Where no node depends on itself, a walk does not come back to the outputs before it. -/
theorem follow?_seen (ho : g.At o m .output) (hm : g.Connected n m)
    (hseen : ∀ x ∈ seen, ∃ p, g.owner? x = some p ∧ rank p < rank m)
    (hseen' : ∀ x ∈ seen', ∃ p, g.owner? x = some p ∧ rank p < rank m) :
    follow? g none name o seen = follow? g none name o seen' := by
  induction hk : (Search.unseen g.sockets.keys seen).length using Nat.strongRecOn
    generalizing o m seen seen' with
  | ind k ih =>
    have howner : g.owner? o = some m := Graph.owner?_eq_some_iff.mpr ⟨_, ho⟩
    have hnew : ∀ l : List SocketId, (∀ x ∈ l, ∃ p, g.owner? x = some p ∧ rank p < rank m) →
        o ∉ l := by
      intro l hl hmem
      obtain ⟨p, hp, hlt⟩ := hl o hmem
      rw [howner] at hp
      cases hp
      exact Nat.lt_irrefl _ hlt
    have hlive : o ∈ g.sockets.keys := mem_sockets_keys.mpr ⟨m, howner⟩
    rw [follow?_eq, follow?_eq, if_pos ⟨hlive, hnew seen hseen⟩, if_pos ⟨hlive, hnew seen' hseen'⟩]
    cases hc : consumerNode? g none o with
    | none => rfl
    | some next =>
      obtain ⟨c, role, node⟩ := next
      simp only
      split
      · rfl
      · obtain ⟨i, hp, hi, hnode⟩ := (consumerNode?_none o c role node).mp hc
        have hw : g.Wired o i :=
          ((Graph.peer?_eq_some_iff h.links).mp hp).resolve_right (Graph.not_wired_output h ho)
        have hlt : rank m < rank c :=
          hrank m c hm ⟨o, i, hw, howner, Graph.owner?_eq_some_iff.mpr ⟨_, hi⟩⟩
        have hgrow : ∀ l : List SocketId, (∀ x ∈ l, ∃ p, g.owner? x = some p ∧ rank p < rank m) →
            ∀ x ∈ o :: l, ∃ p, g.owner? x = some p ∧ rank p < rank c := by
          intro l hl x hx
          rcases List.mem_cons.mp hx with rfl | hx
          · exact ⟨m, howner, hlt⟩
          · obtain ⟨p, hp, hpm⟩ := hl x hx
            exact ⟨p, hp, Nat.lt_trans hpm hlt⟩
        exact ih _ (hk ▸ Search.length_unseen_cons_lt hlive (hnew seen hseen))
          ((Graph.At.output_eq h hnode).mpr rfl) (hm.tail (consumerNode?_linked h howner hc))
          (hgrow seen hseen) (hgrow seen' hseen') rfl

/-- The site is at the input that an output feeds, or it is found from the node of that input. -/
theorem follow?_input (hn : g.node? n = some node) (hs : g.At s n (.input k))
    (hp : g.peer? s = some o) :
    follow? g none name o [] =
      (siteAt? n node.block (.input k) name).or (follow? g none name node.output []) := by
  obtain ⟨m, ho, _, hfeeds⟩ := Graph.exists_feeds h hs hp
  have howner : g.owner? o = some m := Graph.owner?_eq_some_iff.mpr ⟨_, ho⟩
  have hm : g.Connected n m := Graph.Connected.symm (.single hfeeds.linked)
  have hconsumer : consumerNode? g none o = some (n, .input k, node) :=
    (consumerNode?_none ..).mpr ⟨s, (Graph.peer?_comm h.links).mp hp, hs, hn⟩
  have hlive : o ∈ g.sockets.keys := mem_sockets_keys.mpr ⟨m, howner⟩
  rw [follow?_eq, if_pos ⟨hlive, List.not_mem_nil⟩, hconsumer]
  simp only
  cases siteAt? n node.block (.input k) name with
  | some site => rfl
  | none =>
    refine follow?_seen h hrank ((Graph.At.output_eq h hn).mpr rfl) (.refl g n) ?_ ?_
    · intro x hx
      rw [List.mem_singleton.mp hx]
      exact ⟨m, howner, hrank m n hm hfeeds⟩
    · exact fun x hx => absurd hx List.not_mem_nil

end Walk

/-! ## Names and their types -/

/-- The type that a pattern variable is bound with: that of its field, or any if that is not set. -/
def Annotates (field : Option Ty) (t : Ty) : Prop :=
  match field with
  | some u => t = u
  | none => ∃ v, t = .var v

/-- Names are bound with the types of their fields. -/
def Bindings (names : List (String × Option Ty)) (Δ : Context) : Prop :=
  List.Forall₂ (fun p q => q.1 = p.1 ∧ Annotates p.2 q.2) names Δ

theorem Bindings.names {names : List (String × Option Ty)} (h : Bindings names Δ) :
    Δ.map Prod.fst = names.map Prod.fst := by
  induction h with
  | nil => rfl
  | cons hp _ ih => rw [List.map_cons, List.map_cons, hp.1, ih]

/-- The first name of two that are equal is the one that is meant, at the site and in the context.
-/
theorem Bindings.lookup {field : Nat → Option Ty} {names : List String}
    (h : Bindings (names.mapIdx fun k name => (name, field k)) Δ) (name : String) :
    Option.Rel (fun k t => Annotates (field k) t) (names.idxOf? name) (Δ.lookup name) := by
  induction names generalizing field Δ with
  | nil =>
    cases h
    exact .none
  | cons x rest ih =>
    rw [List.mapIdx_cons] at h
    cases h with
    | @cons _ q _ Δ hq hrest =>
      obtain ⟨y, t⟩ := q
      obtain ⟨rfl, ht⟩ : y = x ∧ Annotates (field 0) t := hq
      rw [List.idxOf?_cons, List.lookup_cons]
      by_cases hname : name = y
      · rw [if_pos (beq_iff_eq.mpr hname.symm), beq_iff_eq.mpr hname]
        exact .some ht
      · rw [if_neg (fun h => hname (beq_iff_eq.mp h).symm), beq_eq_false_iff_ne.mpr hname]
        have hrel := ih hrest
        simp only
        generalize rest.idxOf? name = found at hrel
        generalize Δ.lookup name = bound at hrel
        cases hrel with
        | some ht => exact .some ht
        | none => exact .none

structure Encloses (ws : Workspace) (Γ : Context) (scope : Build.Scope) (o : SocketId) : Prop where
  names : Γ.map Prod.fst = scope.flatten
  site : ∀ name t, Γ.lookup name = some t → ∃ site, follow? ws.graph none name o [] = some site ∧
    Annotates (ws.registry.fieldType? site.type site.branch site.field) t

namespace Encloses

theorem nil (ws : Workspace) (o : SocketId) : ws.Encloses [] [] o :=
  ⟨rfl, fun _ _ h => by cases h⟩

theorem input (henc : ws.Encloses Γ scope node.output) (h : ws.graph.WellFormed)
    (hc : ws.Coherent n) (hn : ws.graph.node? n = some node) (hs : ws.graph.At s n (.input k))
    (hp : ws.graph.peer? s = some o)
    (hsite : ∀ name, siteAt? n node.block (.input k) name = none) : ws.Encloses Γ scope o := by
  obtain ⟨rank, hrank⟩ := hc.ranked
  refine ⟨henc.names, fun name t ht => ?_⟩
  rw [follow?_input h hrank hn hs hp, hsite, Option.none_or]
  exact henc.site name t ht

theorem branch (henc : ws.Encloses Γ scope node.output) (h : ws.graph.WellFormed)
    (hc : ws.Coherent n) (hn : ws.graph.node? n = some node) {binders : List (List String)}
    (hblock : node.block = .caseOf type binders) (hs : ws.graph.At s n (.input (k + 1)))
    (hp : ws.graph.peer? s = some o)
    (hΔ : Bindings (Build.typedNames ws.registry type k (binders.getD k [])) Δ) :
    ws.Encloses (Δ ++ Γ) (binders.getD k [] :: scope) o := by
  constructor
  · rw [List.map_append, henc.names, hΔ.names, Build.map_fst_typedNames, List.flatten_cons]
  · obtain ⟨rank, hrank⟩ := hc.ranked
    intro name t ht
    have hrel := hΔ.lookup name
    have hsite : siteAt? n node.block (.input (k + 1)) name =
        ((binders.getD k []).idxOf? name).map fun field => ⟨n, type, k, field⟩ := by
      rw [hblock, siteAt?, List.getD_eq_getElem?_getD]
      cases binders[k]? <;> rfl
    rw [follow?_input h hrank hn hs hp, hsite]
    rw [List.lookup_append] at ht
    generalize (binders.getD k []).idxOf? name = found at hrel
    generalize Δ.lookup name = bound at hrel ht
    cases hrel with
    | some hfield =>
      cases ht
      exact ⟨_, rfl, hfield⟩
    | none => exact henc.site name t ht

end Encloses

end Workspace
end BlockGraph
