import BlockGraph.Proofs.Graph.Changes
import BlockGraph.Proofs.Workspace.Preservation

/-!
# Signatures that are found again

When the signature of a node is found again, its inputs follow.  Inputs that go take
their links with them, and the outputs at the other ends are listed, so that their
components are rebuilt too.  `OnlyAt` says that a change of a graph stays with some
nodes and the owners of the listed outputs.
-/

namespace BlockGraph

variable {node : Node} {r : Registry} {s s' : Supply}

namespace Graph

variable {g g' g'' : Graph} {n m : NodeId} {node : Node} {P : NodeId → Prop}
  {displaced more : List SocketId}

/-- A graph has been changed at some nodes, and outputs of others may have lost their links. -/
structure OnlyAt (g g' : Graph) (P : NodeId → Prop) (displaced : List SocketId) : Prop where
  wellFormed : g'.WellFormed
  node : ∀ m, ¬ P m → g'.node? m = g.node? m
  output : ∀ m, (g'.node? m).map Node.output = (g.node? m).map Node.output
  same : ∀ m, ¬ P m → (∀ s ∈ displaced, g.owner? s ≠ some m) → SameAt g g' m
  displaced : ∀ s ∈ displaced, ∃ m, g.At s m .output
  feeds : ∀ p c, g'.Feeds p c → g.Feeds p c

namespace OnlyAt

theorem refl (h : g.WellFormed) (P : NodeId → Prop) : OnlyAt g g P [] :=
  ⟨h, fun _ _ => rfl, fun _ => rfl, fun m _ _ => .refl g m,
    fun _ hs => absurd hs List.not_mem_nil, fun _ _ hf => hf⟩

theorem mono {Q : NodeId → Prop} (h : OnlyAt g g' P displaced) (hPQ : ∀ m, P m → Q m) :
    OnlyAt g g' Q displaced :=
  ⟨h.wellFormed, fun m hm => h.node m fun hp => hm (hPQ m hp), h.output,
    fun m hm => h.same m fun hp => hm (hPQ m hp), h.displaced, h.feeds⟩

theorem at_output (h : g.WellFormed) (hg : OnlyAt g g' P displaced) {s : SocketId} :
    g'.At s m .output ↔ g.At s m .output := by
  rw [← h.place, ← hg.wellFormed.place, socketAt?, socketAt?, hg.output]

theorem trans (h : g.WellFormed) (hg : OnlyAt g g' P displaced) (hg' : OnlyAt g' g'' P more) :
    OnlyAt g g'' P (displaced ++ more) := by
  refine ⟨hg'.wellFormed, fun m hm => (hg'.node m hm).trans (hg.node m hm),
    fun m => (hg'.output m).trans (hg.output m), fun m hm hs => ?_, fun s hs => ?_,
    fun p c hf => hg.feeds p c (hg'.feeds p c hf)⟩
  · refine (hg.same m hm fun s hs' => hs s (List.mem_append_left _ hs')).trans h hg.wellFormed
      (hg'.same m hm fun s hs' hown => hs s (List.mem_append_right _ hs') ?_)
    obtain ⟨k, hk⟩ := hg'.displaced s hs'
    obtain ⟨role, hrole⟩ := owner?_eq_some_iff.mp hown
    obtain ⟨rfl, _⟩ := hk.unique hrole
    exact owner?_eq_some_iff.mpr ⟨_, (hg.at_output h).mp hk⟩
  · rcases List.mem_append.mp hs with hs | hs
    · exact hg.displaced s hs
    · obtain ⟨k, hk⟩ := hg'.displaced s hs
      exact ⟨k, (hg.at_output h).mp hk⟩

/-- Whoever owns a listed output afterwards owned it before. -/
theorem same_of_owner (h : g.WellFormed) (hg : OnlyAt g g' P displaced) (hm : ¬ P m)
    (hs : ∀ s ∈ displaced, g'.owner? s ≠ some m) : SameAt g g' m := by
  refine hg.same m hm fun s hmem hown => hs s hmem ?_
  obtain ⟨k, hk⟩ := hg.displaced s hmem
  obtain ⟨role, hrole⟩ := owner?_eq_some_iff.mp hown
  obtain ⟨rfl, _⟩ := hk.unique hrole
  exact owner?_eq_some_iff.mpr ⟨_, (hg.at_output h).mpr hk⟩

end OnlyAt

theorem modifyNode_onlyAt (h : g.WellFormed) (n : NodeId) {f : Node → Node}
    (hf : ∀ node, (f node).bare = node.bare) : OnlyAt g (g.modifyNode n f) (· = n) [] := by
  have houtline := outline_modifyNode g n hf
  have hnode : ∀ m, (g.modifyNode n f).node? m = if m = n then (g.node? m).map f else g.node? m :=
    fun m => Slots.get?_modify ..
  refine ⟨(wellFormed_congr houtline).mpr h, fun m hm => by rw [hnode, if_neg hm], fun m => ?_,
    fun m hm _ => ⟨by rw [hnode, if_neg hm], fun _ _ => rfl, fun _ _ => rfl⟩,
    fun s hs => absurd hs List.not_mem_nil, fun p c hf => ?_⟩
  · have hsame : (g.modifyNode n f).socketAt? m .output = g.socketAt? m .output :=
      socketAt?_congr houtline
    exact hsame
  · rwa [feeds_congr houtline] at hf

theorem addInput_onlyAt (h : g.WellFormed) (hn : g.node? n = some node) (ty : Ty) :
    ∃ s g', g.addInput n ty = .ok (s, g') ∧ OnlyAt g g' (· = n) [] ∧
      g'.node? n = some { node with inputs := node.inputs ++ [s] } ∧
      ∀ t socket, g'.socket? t = some socket → g.socket? t = some socket ∨ socket.ty = ty := by
  obtain ⟨s, g', hadd, hwf, hnew, hlinks, hnode, hsocket⟩ := addInput_spec h hn ty
  refine ⟨s, g', hadd, ⟨hwf, fun m hm => by rw [hnode, if_neg hm], fun m => ?_,
    fun m hm _ => ⟨by rw [hnode, if_neg hm], fun t ht => ?_, fun t _ => ?_⟩,
    fun s hs => absurd hs List.not_mem_nil, fun p c => Feeds.of_wired h (fun a b hw => ?_) ?_⟩,
    by rw [hnode, if_pos rfl], fun t socket ht => ?_⟩
  · rw [hnode]
    split
    · next hm => rw [hm, hn]; rfl
    · rfl
  · obtain ⟨socket, hs, _⟩ := Option.map_eq_some_iff.mp ht
    rw [hsocket, if_neg]
    rintro rfl
    rw [hnew] at hs
    cases hs
  · rw [peer?, neighbours, hlinks, peer?, neighbours]
  · rwa [Wired, hlinks] at hw
  · intro t k hold ht
    rw [owner?, hsocket] at ht
    split at ht
    · next hts =>
      rw [owner?, hts, hnew] at hold
      exact absurd rfl hold
    · exact ht
  · rw [hsocket] at ht
    split at ht
    · cases ht
      exact .inr rfl
    · exact .inl ht

/-- A lost input concerns the node that fed it, whose output is listed. -/
theorem popInput_onlyAt (h : g.WellFormed) (hn : g.node? n = some node) {s : SocketId}
    (hs : node.inputs.getLast? = some s) :
    ∃ g', g.popInput n = .ok (some (s, g.peer? s), g') ∧
      OnlyAt g g' (· = n) (g.peer? s).toList ∧
      g'.node? n = some { node with inputs := node.inputs.dropLast } ∧
      ∀ t socket, g'.socket? t = some socket → g.socket? t = some socket := by
  obtain ⟨g', hpop, hwf, hnode, hsocket, hwired⟩ := popInput_spec h hn hs
  obtain ⟨k, hk⟩ := (mem_inputs_iff h hn).mp (List.mem_of_getLast? hs)
  have hown := owner?_eq_some_iff.mpr ⟨_, hk⟩
  refine ⟨g', hpop, ⟨hwf, fun m hm => by rw [hnode, if_neg hm], fun m => ?_,
    fun m hm hdis => ⟨by rw [hnode, if_neg hm], fun t ht => ?_, fun t ht => ?_⟩, fun t ht => ?_,
    fun p c => Feeds.of_wired h (fun a b hw => ((hwired a b).mp hw).1) fun t k _ ht => ?_⟩,
    by rw [hnode, if_pos rfl], fun t socket ht => ?_⟩
  · rw [hnode]
    split
    · next hm => rw [hm, hn]; rfl
    · rfl
  · rw [hsocket, if_neg]
    rintro rfl
    rw [hown] at ht
    cases ht
    exact hm rfl
  · have hts : t ≠ s := by
      rintro rfl
      rw [hown] at ht
      cases ht
      exact hm rfl
    -- The other end is not the input that goes, as its peer would be listed.
    have hother : ∀ u, g.Wired t u ∨ g.Wired u t → u ≠ s := by
      rintro u hu rfl
      have hp : g.peer? u = some t := (peer?_eq_some_iff h.links).mpr hu.symm
      exact hdis t (by rw [hp]; exact List.mem_singleton_self t) ht
    refine peer?_congr h.links hwf.links fun u => ?_
    rw [hwired, hwired]
    constructor
    · exact fun hu => hu.imp And.left And.left
    · intro hu
      have hus := hother u hu
      exact hu.imp (fun hw => ⟨hw, hts, hus⟩) fun hw => ⟨hw, hus, hts⟩
  · have hp : g.peer? s = some t := by simpa using ht
    rcases (peer?_eq_some_iff h.links).mp hp with hw | hw
    · exact absurd hw (not_wired_input h hk)
    · exact h.wired_output t s hw
  · rw [owner?, hsocket] at ht
    split at ht
    · cases ht
    · exact ht
  · rw [hsocket] at ht
    split at ht
    · cases ht
    · exact ht

theorem popInputs_onlyAt (h : g.WellFormed) (hn : g.node? n = some node) {count : Nat}
    (hcount : count ≤ node.inputs.length) :
    OnlyAt g (g.popInputs n count).2 (· = n) (g.popInputs n count).1 ∧
      (∃ inputs, (g.popInputs n count).2.node? n = some { node with inputs } ∧
        inputs.length = node.inputs.length - count) ∧
      ∀ t socket, (g.popInputs n count).2.socket? t = some socket → g.socket? t = some socket := by
  induction count generalizing g node with
  | zero => exact ⟨.refl h _, ⟨node.inputs, hn, rfl⟩, fun _ _ ht => ht⟩
  | succ count ih =>
    obtain ⟨s, hs⟩ : ∃ s, node.inputs.getLast? = some s :=
      ⟨_, List.getLast?_eq_some_getLast (List.ne_nil_of_length_pos (Nat.lt_of_lt_of_le
        (Nat.succ_pos _) hcount))⟩
    obtain ⟨g₁, hpop, hat, hnode, hsockets⟩ := popInput_onlyAt h hn hs
    obtain ⟨hat', ⟨inputs, hnode', hlen⟩, hsockets'⟩ := ih hat.wellFormed hnode (by
      rw [List.length_dropLast]
      exact Nat.le_sub_one_of_lt hcount)
    have heq : g.popInputs n (count + 1) =
        ((g.peer? s).toList ++ (g₁.popInputs n count).1, (g₁.popInputs n count).2) := by
      rw [popInputs, hpop]
    rw [heq]
    refine ⟨hat.trans h hat', ⟨inputs, hnode', ?_⟩, fun t socket ht =>
      hsockets t socket (hsockets' t socket ht)⟩
    rw [hlen, List.length_dropLast]
    omega

theorem addInputs_onlyAt (h : g.WellFormed) (hn : g.node? n = some node) (count : Nat)
    (s : Supply) :
    OnlyAt g (g.addInputs n count s).1 (· = n) [] ∧
      (∃ inputs, (g.addInputs n count s).1.node? n = some { node with inputs } ∧
        inputs.length = node.inputs.length + count) ∧
      s.next ≤ (g.addInputs n count s).2.next ∧
      ∀ t socket, (g.addInputs n count s).1.socket? t = some socket →
        g.socket? t = some socket ∨ socket.ty.Within s.next (g.addInputs n count s).2.next := by
  induction count generalizing g node s with
  | zero => exact ⟨.refl h _, ⟨node.inputs, hn, rfl⟩, Nat.le_refl _, fun _ _ ht => .inl ht⟩
  | succ count ih =>
    obtain ⟨x, g₁, hadd, hat, hnode, hsockets⟩ := addInput_onlyAt h hn s.fresh.1
    obtain ⟨hat', ⟨inputs, hnode', hlen⟩, hsupply, hsockets'⟩ := ih hat.wellFormed hnode s.fresh.2
    have heq : g.addInputs n (count + 1) s = g₁.addInputs n count s.fresh.2 := by
      rw [addInputs]
      simp only [hadd]
    have hlt : s.next < s.fresh.2.next := Nat.lt_succ_self _
    rw [heq]
    refine ⟨hat.trans h hat', ⟨inputs, hnode', ?_⟩, Nat.le_trans (Nat.le_of_lt hlt) hsupply,
      fun t socket ht => ?_⟩
    · rw [hlen, List.length_append, List.length_singleton]
      omega
    · rcases hsockets' t socket ht with hold | hnew
      · rcases hsockets t socket hold with hold | hty
        · exact .inl hold
        · refine .inr fun v hv => ?_
          rw [hty] at hv
          rw [List.mem_singleton.mp hv]
          exact ⟨Nat.le_refl _, Nat.lt_of_lt_of_le hlt hsupply⟩
      · exact .inr (hnew.mono (Nat.le_of_lt hlt) (Nat.le_refl _))

end Graph

/-! ## Signatures -/

theorem Registry.fillFields_supply (fields : List (Option Ty)) (s : Supply) :
    s.next ≤ (Registry.fillFields fields s).2.next := by
  induction fields generalizing s with
  | nil => exact Nat.le_refl _
  | cons field rest ih =>
    cases field with
    | none => exact Nat.le_trans (Nat.le_succ _) (ih s.fresh.2)
    | some t => exact ih s

/-- The variables of a node are those of its signature and of the type that a literal is declared
with. -/
def Node.HasVar (node : Node) (v : TyVar) : Prop :=
  (∃ t, node.signature = some t ∧ v ∈ t.leaves) ∨
    ∃ ty value, node.block = .literal ty value ∧ v ∈ ty.leaves

/-- What the signature of a block is worked out from, and what it is then. -/
inductive Block.Derives (r : Registry) (s : Supply) : Block → Option Ty → Supply → Prop
  | literal {ty : Ty} {value : String} (hknown : r.unknownIn? ty = none) :
      Derives r s (.literal ty value) none s
  | function {name : String} {t : Ty} (ht : r.function? name = some t)
      (hknown : r.unknownIn? t = none) : Derives r s (.function name) (some t) s
  | ctor {name owner : String} {v : Variant} (hv : r.variant? name = some (owner, v)) :
      Derives r s (.ctor name) (some (.curried (Registry.fillFields v.fields s).1 (.lit owner [])))
        (Registry.fillFields v.fields s).2
  | caseOf {type : String} {binders : List (List String)} {t : UserType}
      (ht : r.userType? type = some t) :
      Derives r s (.caseOf type binders)
        (some (.curried (.lit t.name [] :: List.replicate t.variants.length (.var s.next))
          (.var s.next))) s.fresh.2
  | list {items : Nat} :
      Derives r s (.list items) (some (.curried (List.replicate items (.var s.next))
        (.lit Registry.listType [.var s.next]))) s.fresh.2
  | localVar {name : String} : Derives r s (.localVar name) (some (.var s.next)) s.fresh.2

theorem Block.derives_iff {block : Block} {signature : Option Ty} :
    block.Derives r s signature s' ↔ block.derive r s = .ok (signature, s') := by
  constructor
  · intro h
    cases h with
    | literal hknown => simp only [derive, hknown]
    | function ht hknown => simp only [derive, ht, hknown]
    | ctor hv => simp only [derive, Registry.ctorSignature?, hv, Option.map_some]
    | caseOf ht => simp only [derive, Registry.caseSignature?, ht, Option.map_some, Supply.fresh]
    | list => rfl
    | localVar => rfl
  · intro h
    cases block with
    | literal ty value =>
      simp only [derive] at h
      split at h
      · cases h
      next hknown =>
      cases h
      exact .literal hknown
    | function name =>
      simp only [derive] at h
      split at h
      · cases h
      next t ht =>
      split at h
      · cases h
      next hknown =>
      cases h
      exact .function ht hknown
    | ctor name =>
      simp only [derive, Registry.ctorSignature?] at h
      cases hv : r.variant? name with
      | none =>
        rw [hv] at h
        cases h
      | some e =>
        rw [hv] at h
        cases h
        exact .ctor hv
    | caseOf type binders =>
      simp only [derive, Registry.caseSignature?] at h
      cases ht : r.userType? type with
      | none =>
        rw [ht] at h
        cases h
      | some t =>
        rw [ht] at h
        cases h
        exact .caseOf ht
    | list items =>
      cases h
      exact .list
    | localVar name =>
      cases h
      exact .localVar

/-- What the signature of a node says about its block. -/
theorem Block.derive_spec {block : Block} {signature : Option Ty}
    (h : block.derive r s = .ok (signature, s')) :
    s.next ≤ s'.next ∧ (signature = none → ∃ ty value, block = .literal ty value) ∧
      (∀ name, block = .localVar name → ∃ v, signature = some (.var v)) ∧
      ∀ type binders, block = .caseOf type binders → ∃ t, r.userType? type = some t := by
  cases derives_iff.mpr h with
  | literal _ => exact ⟨Nat.le_refl _, fun _ => ⟨_, _, rfl⟩, nofun, nofun⟩
  | function _ _ => exact ⟨Nat.le_refl _, nofun, nofun, nofun⟩
  | ctor _ => exact ⟨Registry.fillFields_supply _ s, nofun, nofun, nofun⟩
  | caseOf ht =>
    refine ⟨Nat.le_succ _, nofun, nofun, fun type binders hblock => ?_⟩
    cases hblock
    exact ⟨_, ht⟩
  | list => exact ⟨Nat.le_succ _, nofun, nofun, nofun⟩
  | localVar => exact ⟨Nat.le_succ _, nofun, fun _ _ => ⟨s.next, rfl⟩, nofun⟩

theorem Block.syncBinders_eq (r : Registry) (block : Block) :
    block.syncBinders r = block ∨ ∃ type binders binders', block = .caseOf type binders ∧
      block.syncBinders r = .caseOf type binders' := by
  cases block with
  | caseOf type binders =>
    simp only [syncBinders]
    split
    · exact .inr ⟨type, binders, _, rfl, rfl⟩
    · exact .inl rfl
  | _ => exact .inl rfl

theorem Block.syncBinders_eq_literal {block : Block} {ty : Ty} {value : String}
    (h : block.syncBinders r = .literal ty value) : block = .literal ty value := by
  rcases syncBinders_eq r block with heq | ⟨_, _, _, _, heq⟩
  · exact heq.symm.trans h
  · cases heq.symm.trans h

/-- What becomes of a node when its signature is looked for. -/
inductive Node.Installed (r : Registry) (s : Supply) (node : Node) : Node → Prop
  | found {signature : Option Ty} {s' : Supply} {inputs : List SocketId}
      (h : node.block.derive r s = .ok (signature, s'))
      (hinputs : inputs.length = (signature.map TyTerm.arity).getD 0) :
      node.Installed r s
        { node with block := node.block.syncBinders r, signature, untyped := none, inputs }
  | missing {fault : SignatureFault} {inputs : List SocketId}
      (h : node.block.derive r s = .error fault) :
      node.Installed r s
        { node with
          block := node.block.syncBinders r
          signature := none
          untyped := some (.invalidSignature fault)
          inputs }

theorem Node.Installed.sound {node' : Node} (h : node.Installed r s node') : node'.Sound r := by
  cases h with
  | @found signature s' inputs h hinputs =>
    obtain ⟨_, hnone, hlocal, hcase⟩ := Block.derive_spec h
    refine ⟨fun _ => ?_, fun name hname => ⟨rfl, hlocal name ?_⟩, fun type binders hblock _ => ?_⟩
    · cases signature with
      | some t =>
        refine ⟨_, rfl, ?_⟩
        rw [List.length_append, TyTerm.length_uncurry, Node.sockets, List.length_append, hinputs]
        rfl
      | none =>
        obtain ⟨ty, value, hblock⟩ := hnone rfl
        refine ⟨[ty], by simp [Node.scheme?, hblock, Block.syncBinders], ?_⟩
        rw [Node.sockets, List.length_append, hinputs]
        rfl
    · rcases Block.syncBinders_eq r node.block with heq | ⟨type, binders, binders', _, heq⟩
      · exact heq.symm.trans hname
      · cases heq.symm.trans hname
    · rcases Block.syncBinders_eq r node.block with heq | ⟨type', binders', binders'', hblock', heq⟩
      · exact hcase type binders (heq.symm.trans hblock)
      · cases heq.symm.trans hblock
        exact hcase _ _ hblock'
  | missing h =>
    refine ⟨fun huntyped => ?_, fun name hname => ?_, fun _ _ _ huntyped => ?_⟩
    · cases huntyped
    · -- The signature of a pattern variable is always found.
      rcases Block.syncBinders_eq r node.block with heq | ⟨_, _, _, _, heq⟩
      · rw [heq.symm.trans hname] at h
        cases h
      · cases heq.symm.trans hname
    · cases huntyped

/-- The signature of a node has been looked for, at some point between two states of the supply. -/
def Node.LookedUp (r : Registry) (s s' : Supply) (node : Node) : Prop :=
  ∃ (node₀ : Node) (s₀ : Supply), s.next ≤ s₀.next ∧ s₀.next ≤ s'.next ∧ node₀.Installed r s₀ node

theorem Node.LookedUp.mono {s₁ s₁' : Supply} (h : node.LookedUp r s s') (hs : s₁.next ≤ s.next)
    (hs' : s'.next ≤ s₁'.next) : node.LookedUp r s₁ s₁' := by
  obtain ⟨node₀, s₀, hle, hle', hinst⟩ := h
  exact ⟨node₀, s₀, Nat.le_trans hs hle, Nat.le_trans hle' hs', hinst⟩

theorem Node.LookedUp.sound (h : node.LookedUp r s s') : node.Sound r := by
  obtain ⟨_, _, _, _, hinst⟩ := h
  exact hinst.sound

namespace Workspace

variable {ws : Workspace} {n : NodeId} {node : Node}

/-- Setting the number of inputs concerns the node and those that fed it.  New inputs have types
with variables from the supply. -/
theorem resizeInputs_spec (h : ws.graph.WellFormed) (hn : ws.graph.node? n = some node)
    (count : Nat) :
    ∃ displaced graph supply,
      ws.resizeInputs n node.inputs.length count = (displaced, { ws with graph, supply }) ∧
      Graph.OnlyAt ws.graph graph (· = n) displaced ∧ ws.supply.next ≤ supply.next ∧
      (∃ inputs, graph.node? n = some { node with inputs } ∧ inputs.length = count) ∧
      (node.inputs = [] → displaced = []) ∧
      ∀ t socket, graph.socket? t = some socket →
        ws.graph.socket? t = some socket ∨ socket.ty.Within ws.supply.next supply.next := by
  obtain ⟨hpop, ⟨kept, hkept, hlen⟩, hsub⟩ :=
    Graph.popInputs_onlyAt h hn (Nat.sub_le node.inputs.length count)
  obtain ⟨hadd, ⟨inputs, hinputs, hlen'⟩, hsupply, hsockets⟩ :=
    Graph.addInputs_onlyAt hpop.wellFormed hkept (count - node.inputs.length) ws.supply
  have honly := hpop.trans h hadd
  rw [List.append_nil] at honly
  refine ⟨_, _, _, rfl, honly, hsupply, ⟨inputs, hinputs, ?_⟩, fun hempty => ?_,
    fun t socket ht => (hsockets t socket ht).imp_left (hsub t socket)⟩
  · rw [hlen', hlen]
    omega
  · rw [hempty, List.length_nil, Nat.zero_sub]
    rfl

/-- Looking for the signature of a node changes the node, and then sets the number of its inputs. -/
theorem install_eq (hn : ws.graph.node? n = some node) :
    ∃ (f : Node → Node) (supply : Supply) (count : Nat),
      ws.install n = { ws with graph := ws.graph.modifyNode n f, supply }.resizeInputs n
        node.inputs.length count ∧
      (∀ node, (f node).bare = node.bare) ∧ ws.supply.next ≤ supply.next ∧
      (∀ inputs, inputs.length = count →
        node.Installed ws.registry ws.supply { f node with inputs }) ∧
      ∀ v, (f node).HasVar v → node.HasVar v ∨
        ∃ t, node.block.derive ws.registry ws.supply = .ok (some t, supply) ∧ v ∈ t.leaves := by
  cases hderive : node.block.derive ws.registry ws.supply with
  | ok result =>
    obtain ⟨signature, supply⟩ := result
    refine ⟨fun node =>
      { node with signature, untyped := none, block := node.block.syncBinders ws.registry }, supply,
      (signature.map TyTerm.arity).getD 0, by simp only [install, hn, hderive], fun _ => rfl,
      (Block.derive_spec hderive).1, fun inputs hinputs => .found hderive hinputs, fun v hv => ?_⟩
    rcases hv with ⟨t, ht, hv⟩ | ⟨ty, value, hblock, hv⟩
    · cases ht
      exact .inr ⟨t, rfl, hv⟩
    · exact .inl (.inr ⟨ty, value, Block.syncBinders_eq_literal hblock, hv⟩)
  | error fault =>
    refine ⟨fun node =>
      { node with
        signature := none
        untyped := some (.invalidSignature fault)
        block := node.block.syncBinders ws.registry }, ws.supply, node.inputs.length,
      by simp only [install, hn, hderive], fun _ => rfl, Nat.le_refl _,
      fun inputs _ => .missing hderive, fun v hv => ?_⟩
    rcases hv with ⟨t, ht, _⟩ | ⟨ty, value, hblock, hv⟩
    · cases ht
    · exact .inl (.inr ⟨ty, value, Block.syncBinders_eq_literal hblock, hv⟩)

/-- Looking for the signature of a node concerns the node and those that fed it. -/
theorem install_spec (h : ws.graph.WellFormed) (hn : ws.graph.node? n = some node)
    (hbelow : Below ws.graph ws.supply) :
    ∃ displaced graph supply, ws.install n = (displaced, { ws with graph, supply }) ∧
      Graph.OnlyAt ws.graph graph (· = n) displaced ∧ Below graph supply ∧
      ws.supply.next ≤ supply.next ∧
      (∃ node', graph.node? n = some node' ∧ node.Installed ws.registry ws.supply node') ∧
      (node.inputs = [] → displaced = []) := by
  obtain ⟨f, supply, count, hinstall, hbare, hle, hinst, _⟩ := install_eq hn
  have hmodify := Graph.modifyNode_onlyAt h n hbare
  have hnode : (ws.graph.modifyNode n f).node? n = some (f node) := by
    rw [Graph.node?_modifyNode hn, if_pos rfl]
  have hinputs : (f node).inputs = node.inputs :=
    show (f node).bare.inputs = node.bare.inputs by rw [hbare]
  obtain ⟨displaced, graph, supply', hresize, honly, hle', ⟨inputs, hnode', hlen⟩, hempty,
    hsockets⟩ :=
    @resizeInputs_spec { ws with graph := ws.graph.modifyNode n f, supply } n (f node)
      hmodify.wellFormed hnode count
  rw [hinputs] at hresize hempty
  refine ⟨displaced, graph, supply', hinstall.trans hresize, hmodify.trans h honly,
    fun t socket ht v hv => ?_, Nat.le_trans hle hle', ⟨_, hnode', hinst inputs hlen⟩, hempty⟩
  rcases hsockets t socket ht with hold | hnew
  · exact Nat.lt_of_lt_of_le (hbelow t socket hold v hv) (Nat.le_trans hle hle')
  · exact (hnew v hv).2

theorem install_wellFormed (h : ws.graph.WellFormed) (hbelow : Below ws.graph ws.supply)
    (n : NodeId) : (ws.install n).2.graph.WellFormed := by
  cases hn : ws.graph.node? n with
  | none =>
    rw [install, hn]
    exact h
  | some node =>
    obtain ⟨displaced, graph, supply, hinstall, honly, _⟩ := install_spec h hn hbelow
    rw [hinstall]
    exact honly.wellFormed

theorem install_below (h : ws.graph.WellFormed) (hbelow : Below ws.graph ws.supply) (n : NodeId) :
    Below (ws.install n).2.graph (ws.install n).2.supply := by
  cases hn : ws.graph.node? n with
  | none =>
    rw [install, hn]
    exact hbelow
  | some node =>
    obtain ⟨displaced, graph, supply, hinstall, _, hbelow', _⟩ := install_spec h hn hbelow
    rw [hinstall]
    exact hbelow'

theorem installAll_spec (h : ws.graph.WellFormed) (hbelow : Below ws.graph ws.supply)
    (nodes : List NodeId) :
    ∃ seeds graph supply, ws.installAll nodes = (seeds, { ws with graph, supply }) ∧
      (∃ displaced, Graph.OnlyAt ws.graph graph (· ∈ nodes) displaced ∧
        ∀ s ∈ displaced, s ∈ seeds) ∧
      Below graph supply ∧ ws.supply.next ≤ supply.next ∧
      ∀ m ∈ nodes, ∀ node, graph.node? m = some node →
        node.LookedUp ws.registry ws.supply supply ∧ node.output ∈ seeds := by
  induction nodes generalizing ws with
  | nil =>
    exact ⟨[], ws.graph, ws.supply, rfl, ⟨[], .refl h _, fun s hs => hs⟩, hbelow, Nat.le_refl _,
      fun m hm => absurd hm List.not_mem_nil⟩
  | cons n rest ih =>
    obtain ⟨displaced, graph, supply, hinstall, honly, hbelow', hle, hlooked⟩ :
        ∃ displaced graph supply, ws.install n = (displaced, { ws with graph, supply }) ∧
          Graph.OnlyAt ws.graph graph (· = n) displaced ∧ Below graph supply ∧
          ws.supply.next ≤ supply.next ∧
          ∀ node', graph.node? n = some node' → node'.LookedUp ws.registry ws.supply supply := by
      cases hn : ws.graph.node? n with
      | none =>
        refine ⟨[], ws.graph, ws.supply, by rw [install, hn], .refl h _, hbelow, Nat.le_refl _,
          fun node' hn' => ?_⟩
        rw [hn] at hn'
        cases hn'
      | some node =>
        obtain ⟨displaced, graph, supply, hinstall, honly, hbelow', hle,
          ⟨node', hnode', hinst⟩, _⟩ :=
          install_spec h hn hbelow
        refine ⟨displaced, graph, supply, hinstall, honly, hbelow', hle, fun node'' hn'' => ?_⟩
        rw [hnode'] at hn''
        cases hn''
        exact ⟨node, ws.supply, Nat.le_refl _, hle, hinst⟩
    obtain ⟨seeds, graph', supply', hrest, ⟨more, honly', hmore⟩, hbelow'', hle', hnodes⟩ :=
      @ih { ws with graph, supply } honly.wellFormed hbelow'
    refine ⟨displaced ++ (graph'.socketAt? n .output).toList ++ seeds, graph', supply', ?_,
      ⟨displaced ++ more, (honly.mono fun m hm => ?_).trans h (honly'.mono fun m hm => ?_),
        fun s hs => ?_⟩, hbelow'', Nat.le_trans hle hle', fun m hm node hnode => ?_⟩
    · simp only [installAll, hinstall, hrest]
    · exact hm ▸ List.mem_cons_self
    · exact List.mem_cons_of_mem n hm
    · rcases List.mem_append.mp hs with hs | hs
      · exact List.mem_append_left _ (List.mem_append_left _ hs)
      · exact List.mem_append_right _ (hmore s hs)
    · by_cases hrest : m ∈ rest
      · obtain ⟨hlook, hseed⟩ := hnodes m hrest node hnode
        exact ⟨hlook.mono hle (Nat.le_refl _), List.mem_append_right _ hseed⟩
      · obtain rfl : m = n := (List.mem_cons.mp hm).resolve_right hrest
        have hlook := hlooked node ((honly'.node m hrest).symm.trans hnode)
        refine ⟨hlook.mono (Nat.le_refl _) hle', ?_⟩
        have houtput : graph'.socketAt? m .output = some node.output := by
          simp [Graph.socketAt?, hnode]
        rw [houtput]
        exact List.mem_append_left _ (List.mem_append_right _ (List.mem_singleton_self _))

/-- After a change of the registry or of the graph, a rebuild has to start from all nodes that the
change concerns. -/
theorem installAll_prepared {ws₀ : Workspace} (h₀ : ws₀.graph.WellFormed)
    (h : ws.graph.WellFormed) (hbelow : Below ws.graph ws.supply) {nodes : List NodeId}
    (hsound : ∀ m node, m ∉ nodes → ws.graph.node? m = some node → node.Sound ws.registry)
    (hsame : ∀ m node, m ∉ nodes → ws.graph.node? m = some node → SameAt ws₀ ws m)
    (hfeeds : ∀ p c, ws.graph.Feeds p c → ws₀.graph.Feeds p c) :
    Prepared ws₀ (ws.installAll nodes).2 (ws.installAll nodes).1 := by
  obtain ⟨seeds, graph, supply, hall, ⟨displaced, honly, hsub⟩, hbelow', _, hnodes⟩ :=
    installAll_spec h hbelow nodes
  rw [hall]
  refine ⟨honly.wellFormed, fun m node hnode => ?_, hbelow', fun m node hnode hseeds => ?_,
    fun p c hf => hfeeds p c (honly.feeds p c hf)⟩
  · by_cases hm : m ∈ nodes
    · exact (hnodes m hm node hnode).1.sound
    · exact hsound m node hm ((honly.node m hm).symm.trans hnode)
  · have hm : m ∉ nodes := fun hm => hseeds node.output (hnodes m hm node hnode).2
      (Graph.owner?_output honly.wellFormed hnode)
    have hgraph := honly.same_of_owner h hm fun s hs => hseeds s (hsub s hs)
    exact (hsame m node hm ((honly.node m hm).symm.trans hnode)).trans h₀ h
      ⟨hgraph, fun _ _ _ _ _ => rfl⟩

end Workspace
end BlockGraph
