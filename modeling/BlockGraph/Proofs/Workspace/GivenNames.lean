import BlockGraph.Proofs.Graph.Growing
import BlockGraph.Proofs.Registry.Derivation
import BlockGraph.Proofs.Workspace.FieldNames

/-!
# Names that a description gives

A description may give names to the fields of a distinction of cases.  Names have no part in how
a graph hangs together, so the nodes and links that follow are loaded as they
would be without them.  Hence names that are legal and differ from each other are
refused for one reason only: one of them is the letter of a later field, which has not got its own
name yet.
-/

namespace BlockGraph

/-! ## New nodes -/

/-- The blocks differ in the type of a literal, or not at all. -/
inductive Block.Alike : Block → Block → Prop
  | refl (block : Block) : Alike block block
  | literal (ty ty' : Ty) (value : String) : Alike (.literal ty value) (.literal ty' value)

namespace Workspace

variable {ws ws' ws₁ : Workspace} {n m : NodeId} {node : Node} {type : String}
  {bound : List (List String)} {block : Block}

theorem install_outline (hn : ws.graph.node? n = some node) (hinputs : node.inputs = [])
    (s : Supply) : (ws.install n).2.graph.outline =
      (ws.graph.addInputs n (node.block.inputCount ws.registry) s).1.outline := by
  simp only [install, hn, hinputs]
  cases hderive : node.block.derive ws.registry ws.supply with
  | ok result =>
    obtain ⟨signature, supply⟩ := result
    rw [← Block.inputCount_of_ok hderive]
    simp only [resizeInputs, List.length_nil, Nat.zero_sub, Nat.sub_zero, Graph.popInputs]
    refine Graph.addInputs_congr ?_ n _ s supply
    exact Graph.outline_modifyNode ws.graph n fun _ => rfl
  | error fault =>
    rw [Block.inputCount_of_error hderive]
    simp only [resizeInputs, List.length_nil, Nat.sub_zero, Graph.popInputs]
    exact Graph.outline_modifyNode ws.graph n fun _ => rfl

/-- Where a new node goes depends on the outline of the graph only, and other nodes stay as they
are. -/
theorem addNode_spec (h : ws.Sound) (hok : addNode block ws = .ok n ws') :
    ws.graph.node? n = none ∧ ws'.registry = ws.registry ∧
      n = (ws.graph.insertNode block (.var 0)).1 ∧
      ws'.graph.outline = ((ws.graph.insertNode block (.var 0)).2.addInputs n
        (block.inputCount ws.registry) {}).1.outline ∧
      ∀ m, ws'.cases? m =
        if m = n then (block.syncBinders ws.registry).cases? else ws.cases? m := by
  obtain ⟨n', s, graph, hinsert, hwf, hnew, _, _, hnode, hsocket⟩ :=
    Graph.insertNode_spec h.graph block (ws.supply.past block.leaves).fresh.1
  let ws₁ : Workspace := { ws with graph, supply := (ws.supply.past block.leaves).fresh.2 }
  have hbelow : Below ws₁.graph ws₁.supply :=
    below_of_insert h.below (ws.supply.le_past block.leaves) hsocket
  have hn : ws₁.graph.node? n' = some { block, output := s } := by
    rw [hnode, if_pos rfl]
  have hplace := Graph.insertNode_congr (rfl : ws.graph.outline = ws.graph.outline) block
    block (.var 0) (ws.supply.past block.leaves).fresh.1
  rw [hinsert] at hplace
  have hshape := (recompute_redrawn (install_wellFormed hwf hbelow n')
    ((ws₁.install n').2.graph.socketAt? n' .output).toList).sameShape
  obtain ⟨displaced, graph', supply', hinstall, honly, _, _, ⟨node', hn', hinst⟩, _⟩ :=
    install_spec hwf hn hbelow
  have hblock : node'.block = block.syncBinders ws.registry := by
    cases hinst <;> rfl
  simp only [addNode, hinsert] at hok
  cases hok
  refine ⟨hnew, ?_, hplace.1, ?_, fun m => ?_⟩
  · rw [hshape.registry, hinstall]
  · rw [hshape.outline, install_outline hn rfl {}]
    exact Graph.addInputs_congr hplace.2 n _ {} {}
  · rw [hshape.cases?, hinstall, cases?]
    split
    next hmn =>
      rw [hmn, hn', Option.bind_some, hblock]
    next hmn =>
      have hsame : graph'.node? m = ws.graph.node? m := by
        rw [honly.node m hmn, hnode, if_neg hmn]
      rw [hsame, cases?]

theorem Named.addNode (h : Named ws ws' n type bound) (hs : ws.Sound) (hs' : ws'.Sound)
    {block' : Block} (halike : block.Alike block') (hok : addNode block ws = .ok m ws₁) :
    m ≠ n ∧ ∃ ws₁', Workspace.addNode block' ws' = .ok m ws₁' ∧ Named ws₁ ws₁' n type bound := by
  obtain ⟨m', ws₁', hok'⟩ : ∃ m' ws₁', Workspace.addNode block' ws' = .ok m' ws₁' := ⟨_, _, rfl⟩
  have hcount : block'.inputCount ws.registry = block.inputCount ws.registry := by
    cases halike <;> rfl
  have hnames :
      (block'.syncBinders ws.registry).cases? = (block.syncBinders ws.registry).cases? := by
    cases halike <;> rfl
  obtain ⟨hnew, hregistry, hm, houtline, hcases⟩ := addNode_spec hs hok
  obtain ⟨hnew', hregistry', hm', houtline', hcases'⟩ := addNode_spec hs' hok'
  obtain ⟨hplace, hinserted⟩ := Graph.insertNode_congr h.outline block block' (.var 0) (.var 0)
  have hmm : m' = m := by rw [hm', hm, hplace]
  subst hmm
  have hne : m' ≠ n := by
    rintro rfl
    obtain ⟨node, hn, _⟩ := cases?_eq_some_iff.mp h.own
    rw [hnew'] at hn
    cases hn
  refine ⟨hne, ws₁', hok', ?_, ?_, fun k hk => ?_, ?_⟩
  · rw [hregistry', h.registry, hregistry]
  · rw [houtline', houtline, h.registry, hcount]
    exact Graph.addInputs_congr hinserted m' _ {} {}
  · rw [hcases', hcases, h.registry, hnames, h.others k hk]
  · rw [hcases', if_neg hne.symm, h.own]

theorem Reachable.addNode (h : ws.Reachable) (hok : addNode block ws = .ok n ws') :
    ws'.Reachable :=
  @Reachable.run ws ws' (.addNode block) h (by rw [Action.run, after?, hok])

end Workspace

/-! ## Loading the rest -/

namespace Loading

variable {given : List (List String)} {name : String} {ns : List (String × DescribedNode)}

open Workspace

variable {ws ws' ws₁ : Workspace} {n m : NodeId} {type : String} {b place : Nat}
  {bound : List (List String)} {names : List (String × NodeId)}

theorem branch_named (h : Named ws ws' n type bound) (hwf : ws.graph.WellFormed) (hmn : m ≠ n)
    {given : List String} (hok : branch m b place given ws = .ok ws₁) :
    ∃ ws₁', branch m b place given ws' = .ok ws₁' ∧ Named ws₁ ws₁' n type bound := by
  induction given generalizing ws ws' place with
  | nil =>
    cases hok
    exact ⟨ws', rfl, h⟩
  | cons name rest ih =>
    obtain ⟨_, ws₂, hrename, hrest⟩ := branch_cons_iff.mp hok
    have hwf' := (Graph.wellFormed_congr h.outline).mpr hwf
    obtain ⟨mtype, binders, current, hm, hcurrent, hfield, hvalid, hfree, hnamed⟩ :=
      renameBinder_named hwf hrename
    obtain ⟨hiff, hnamed'⟩ := renameBinder_spec hwf' ((h.others m hmn).trans hm) hcurrent hfield
      hvalid
    obtain ⟨_, ws₂', hrename'⟩ := hiff.mpr hfree
    obtain ⟨ws₁', hrest', hafter⟩ := ih (h.after hmn hnamed (hnamed' _ ws₂' hrename'))
      ((Graph.wellFormed_congr hnamed.outline).mpr hwf) hrest
    exact ⟨ws₁', branch_cons_iff.mpr ⟨_, ws₂', hrename', hrest'⟩, hafter⟩

theorem branches_named (h : Named ws ws' n type bound) (hr : ws.Reachable) (hmn : m ≠ n)
    (hok : branches m place given ws = .ok ws₁) :
    ∃ ws₁', branches m place given ws' = .ok ws₁' ∧ Named ws₁ ws₁' n type bound := by
  induction given generalizing ws ws' place with
  | nil =>
    cases hok
    exact ⟨ws', rfl, h⟩
  | cons names rest ih =>
    obtain ⟨ws₂, hbranch, hrest⟩ := branches_cons_iff.mp hok
    obtain ⟨ws₂', hbranch', hafter⟩ := branch_named h hr.sound.graph hmn hbranch
    obtain ⟨ws₁', hrest', hafter⟩ := ih hafter (branch_reachable hr hbranch) hrest
    exact ⟨ws₁', branches_cons_iff.mpr ⟨ws₂', hbranch', hrest'⟩, hafter⟩

theorem nodes_cons_iff {node : DescribedNode} {rest : List (String × DescribedNode)} :
    nodes ((name, node) :: rest) ws = .ok (names, ws') ↔
      ∃ b binders n ws₁ ws₂ others, block name ws.supply node = .ok (b, binders) ∧
        addNode b ws = .ok n ws₁ ∧ branches n 0 binders ws₁ = .ok ws₂ ∧
          nodes rest ws₂ = .ok (others, ws') ∧ names = (name, n) :: others := by
  constructor
  · intro hok
    obtain ⟨⟨b, binders⟩, hblock, hok⟩ := bind_eq_ok hok
    obtain ⟨⟨n, ws₁⟩, hattempt, hok⟩ := bind_eq_ok hok
    obtain ⟨ws₂, hbranches, hok⟩ := bind_eq_ok hok
    obtain ⟨⟨others, ws₃⟩, hrest, hok⟩ := bind_eq_ok hok
    cases hok
    exact ⟨b, binders, n, ws₁, ws₂, others, hblock, attempt_ok hattempt, hbranches, hrest, rfl⟩
  · rintro ⟨b, binders, n, ws₁, ws₂, others, hblock, hadd, hbranches, hrest, rfl⟩
    simp only [nodes, hblock, attempt, hadd, hbranches, hrest, bind, Except.bind]
    rfl

/-- The supply decides about nothing but the variables of a literal. -/
theorem block_alike {node : DescribedNode} {s : Supply} {b : Block} {binders : List (List String)}
    (hok : block name s node = .ok (b, binders)) (s' : Supply) :
    ∃ b', block name s' node = .ok (b', binders) ∧ b.Alike b' := by
  cases node with
  | literal source value =>
    simp only [block, readType] at hok ⊢
    cases hread : NamedTy.read source with
    | error e =>
      rw [hread] at hok
      cases hok
    | ok t =>
      rw [hread] at hok
      cases hok
      exact ⟨_, rfl, .literal _ _ value⟩
  | _ => exact ⟨b, hok, .refl b⟩

/-- The nodes that follow are loaded as they would be without the names. -/
theorem nodes_named (h : Named ws ws' n type bound) (hr : ws.Reachable) (hr' : ws'.Reachable)
    (hok : nodes ns ws = .ok (names, ws₁)) :
    ∃ ws₁', nodes ns ws' = .ok (names, ws₁') ∧ Named ws₁ ws₁' n type bound := by
  induction ns generalizing ws ws' names with
  | nil =>
    cases hok
    exact ⟨ws', rfl, h⟩
  | cons e rest ih =>
    obtain ⟨b, given, m, ws₂, ws₃, others, hblock, hadd, hbranches, hrest, rfl⟩ :=
      nodes_cons_iff.mp hok
    obtain ⟨b', hblock', halike⟩ := block_alike hblock ws'.supply
    obtain ⟨hmn, ws₂', hadd', h⟩ := h.addNode hr.sound hr'.sound halike hadd
    have hr := hr.addNode hadd
    have hr' := hr'.addNode hadd'
    obtain ⟨ws₃', hbranches', h⟩ := branches_named h hr hmn hbranches
    obtain ⟨ws₁', hrest', h⟩ := ih h (branches_reachable hr hbranches)
      (branches_reachable hr' hbranches') hrest
    exact ⟨ws₁', nodes_cons_iff.mpr
      ⟨b', given, m, ws₂', ws₃', others, hblock', hadd', hbranches', hrest', rfl⟩, h⟩

theorem branch_registry (h : ws.graph.WellFormed) {given : List String}
    (hok : branch n b place given ws = .ok ws') : ws'.registry = ws.registry := by
  induction given generalizing ws place with
  | nil =>
    cases hok
    rfl
  | cons name rest ih =>
    obtain ⟨_, ws₁, hrename, hrest⟩ := branch_cons_iff.mp hok
    obtain ⟨_, _, _, _, _, _, _, _, hnamed⟩ := renameBinder_named h hrename
    rw [ih ((Graph.wellFormed_congr hnamed.outline).mpr h) hrest, hnamed.registry]

theorem branches_registry (h : ws.Reachable) (hok : branches n place given ws = .ok ws') :
    ws'.registry = ws.registry := by
  induction given generalizing ws place with
  | nil =>
    cases hok
    rfl
  | cons names rest ih =>
    obtain ⟨ws₁, hbranch, hrest⟩ := branches_cons_iff.mp hok
    rw [ih (branch_reachable h hbranch) hrest, branch_registry h.sound.graph hbranch]

theorem nodes_registry (h : ws.Reachable) (hok : nodes ns ws = .ok (names, ws')) :
    ws'.registry = ws.registry := by
  induction ns generalizing ws names with
  | nil =>
    cases hok
    rfl
  | cons e rest ih =>
    obtain ⟨b, given, n, ws₁, ws₂, others, _, hadd, hbranches, hrest, rfl⟩ := nodes_cons_iff.mp hok
    have hr := h.addNode hadd
    rw [ih (branches_reachable hr hbranches) hrest, branches_registry hr hbranches,
      (addNode_revised h.sound hadd).registry]

theorem nodes_given_first {t : UserType} (hr : ws.Reachable) {rest : List (String × DescribedNode)}
    (ht : ws.registry.userType? type = some t) (hgiven : Nameable t.variants given)
    (hok : nodes ((name, .caseOf type []) :: rest) ws = .ok (names, ws₁)) :
    ((∃ r, nodes ((name, .caseOf type given) :: rest) ws = .ok r) ↔ Clear t.variants given) ∧
    ∀ names' ws₁', nodes ((name, .caseOf type given) :: rest) ws = .ok (names', ws₁') →
      names' = names ∧ ∃ n, names[0]? = some (name, n) ∧
        Named ws₁ ws₁' n type (boundNames t.variants given) := by
  obtain ⟨_, _, n, ws₂, ws₃, others, hblock, hadd, hbranches, hrest, rfl⟩ := nodes_cons_iff.mp hok
  cases hblock
  cases hbranches
  have hr₂ := hr.addNode hadd
  have hown : ws₂.cases? n = some (type, [] ++ boundNames t.variants []) := by
    rw [(addNode_spec hr.sound hadd).2.2.2.2, if_pos rfl, Block.syncBinders, ht,
      List.nil_append, boundNames_nil, ← fitBinders_nil]
    rfl
  obtain ⟨hiff, hnamed⟩ := branches_spec hr₂.sound.graph hown hgiven
  -- Once the names are given, the nodes that follow come as they did without them.
  have hafter : ∀ ws₃, branches n 0 given ws₂ = .ok ws₃ →
      ∃ ws₁', nodes rest ws₃ = .ok (others, ws₁') ∧
        Named ws₁ ws₁' n type (boundNames t.variants given) := fun ws₃ hbranches =>
    nodes_named (hnamed ws₃ hbranches) hr₂ (branches_reachable hr₂ hbranches) hrest
  refine ⟨⟨?_, fun hclear => ?_⟩, fun names' ws₁' hok' => ?_⟩
  · rintro ⟨⟨names', ws₁'⟩, hok'⟩
    obtain ⟨_, _, n', ws₂', ws₃, _, hblock, hadd', hbranches, _, _⟩ := nodes_cons_iff.mp hok'
    cases hblock
    cases hadd.symm.trans hadd'
    exact hiff.mp ⟨ws₃, hbranches⟩
  · obtain ⟨ws₃, hbranches⟩ := hiff.mpr hclear
    obtain ⟨ws₁', hrest', _⟩ := hafter ws₃ hbranches
    exact ⟨((name, n) :: others, ws₁'), nodes_cons_iff.mpr
      ⟨_, given, n, ws₂, ws₃, others, rfl, hadd, hbranches, hrest', rfl⟩⟩
  · obtain ⟨_, _, n', ws₂', ws₃, _, hblock, hadd', hbranches, hrest', rfl⟩ :=
      nodes_cons_iff.mp hok'
    cases hblock
    cases hadd.symm.trans hadd'
    obtain ⟨ws₁', hrest'', hnamed⟩ := hafter ws₃ hbranches
    cases hrest'.symm.trans hrest''
    exact ⟨rfl, n, rfl, hnamed⟩

theorem nodes_given {t : UserType} (hr : ws.Reachable) {k : Nat}
    (hk : ns[k]? = some (name, .caseOf type given)) (ht : ws.registry.userType? type = some t)
    (hgiven : Nameable t.variants given)
    (hok : nodes (ns.set k (name, .caseOf type [])) ws = .ok (names, ws₁)) :
    ((∃ r, nodes ns ws = .ok r) ↔ Clear t.variants given) ∧
    ∀ names' ws₁', nodes ns ws = .ok (names', ws₁') → names' = names ∧
      ∃ n, names[k]? = some (name, n) ∧ Named ws₁ ws₁' n type (boundNames t.variants given) := by
  induction ns generalizing ws k names with
  | nil => cases hk
  | cons e rest ih =>
    cases k with
    | zero =>
      cases hk
      exact nodes_given_first hr ht hgiven hok
    | succ k =>
      obtain ⟨b, first, m, ws₂, ws₃, others, hblock, hadd, hbranches, hrest, rfl⟩ :=
        nodes_cons_iff.mp hok
      have hr₂ := hr.addNode hadd
      have hregistry : ws₃.registry = ws.registry := by
        rw [branches_registry hr₂ hbranches, (addNode_revised hr.sound hadd).registry]
      obtain ⟨hiff, hnamed⟩ := ih (branches_reachable hr₂ hbranches) hk (hregistry ▸ ht) hrest
      -- The first node is the same.
      have hfirst : ∀ {r : List (String × NodeId) × Workspace}, nodes (e :: rest) ws = .ok r →
          ∃ others', nodes rest ws₃ = .ok (others', r.2) ∧ r.1 = (e.1, m) :: others' := by
        rintro ⟨names', ws₁'⟩ hok'
        obtain ⟨_, _, m', ws₂', ws₃', others', hblock', hadd', hbranches', hrest', rfl⟩ :=
          nodes_cons_iff.mp hok'
        cases hblock.symm.trans hblock'
        cases hadd.symm.trans hadd'
        cases hbranches.symm.trans hbranches'
        exact ⟨others', hrest', rfl⟩
      refine ⟨⟨?_, fun hclear => ?_⟩, fun names' ws₁' hok' => ?_⟩
      · rintro ⟨r, hok'⟩
        obtain ⟨others', hrest', _⟩ := hfirst hok'
        exact hiff.mp ⟨_, hrest'⟩
      · obtain ⟨⟨others', ws₁'⟩, hrest'⟩ := hiff.mpr hclear
        exact ⟨((e.1, m) :: others', ws₁'), nodes_cons_iff.mpr
          ⟨b, first, m, ws₂, ws₃, others', hblock, hadd, hbranches, hrest', rfl⟩⟩
      · obtain ⟨others', hrest', hnames'⟩ := hfirst hok'
        obtain ⟨rfl, n, hn, hnamed⟩ := hnamed others' ws₁' hrest'
        exact ⟨hnames', n, hn, hnamed⟩

theorem links_kept (h : ws.graph.WellFormed) {ls : List DescribedLink}
    (hok : links names ls ws = .ok ws') :
    ws'.registry = ws.registry ∧ ∀ n, ws'.cases? n = ws.cases? n := by
  obtain ⟨_, hj, rfl⟩ := (links_ok_iff h).mp hok
  obtain ⟨_, heq, _⟩ := attachedAll_spec h hj
  rw [heq]
  exact ⟨rfl, fun _ => rfl⟩

theorem links_named (h : Named ws ws' n type bound) (hwf : ws.graph.WellFormed)
    {ls : List DescribedLink} (hok : links names ls ws = .ok ws₁) :
    ∃ ws₁', links names ls ws' = .ok ws₁' := by
  obtain ⟨hends, hj, _⟩ := (links_ok_iff hwf).mp hok
  have hsame : ends? names ws'.graph = ends? names ws.graph := by
    funext l
    simp only [ends?, Graph.socketAt?_congr h.outline]
  have hat : ∀ {s m role}, ws.graph.At s m role → ws'.graph.At s m role := fun hs =>
    Graph.at_outline.mp (h.outline ▸ Graph.at_outline.mpr hs)
  have hj' : ws'.graph.Joinable (ls.filterMap (ends? names ws.graph)) := by
    refine ⟨fun e he => ?_, hj.apart⟩
    obtain ⟨p, c, hl⟩ := hj.linkable e he
    obtain ⟨k, hk⟩ := hl.input
    exact ⟨p, c, hat hl.output, ⟨k, hat hk⟩,
      (Graph.peer?_eq_of_outline h.outline).trans hl.output_free,
      (Graph.peer?_eq_of_outline h.outline).trans hl.input_free⟩
  exact ⟨_, (links_ok_iff ((Graph.wellFormed_congr h.outline).mpr hwf)).mpr
    ⟨hsame ▸ hends, hsame ▸ hj', rfl⟩⟩

end Loading

/-! ## Descriptions -/

namespace Description

open Loading

variable {d : Description} {l l₀ : Loaded}

/-- The description without names for the fields of a node. -/
def unnamed (d : Description) (k : Nat) (name type : String) : Description :=
  { d with nodes := d.nodes.set k (name, .caseOf type []) }

theorem resolved_kept {names : List (String × NodeId)} {ws : Workspace} (h : ws.Reachable) :
    (resolved names ws).workspace.registry = ws.registry ∧
      ∀ n, (resolved names ws).workspace.cases? n = ws.cases? n :=
  have hshape := Workspace.resolveAll_sameShape h.sound
  ⟨hshape.registry, hshape.cases?⟩

/-- If a description can be loaded without the names that it gives to the fields of a distinction of
cases, and these names are legal and differ from each other, then it can be loaded with them just
if none of them is the letter of a later field.  Then the fields have the names that
are given, in their order, and letters where none is given. -/
theorem load_given_names {k : Nat} {name type : String} {given : List (List String)} {t : UserType}
    (hk : d.nodes[k]? = some (name, .caseOf type given))
    (hload : (d.unnamed k name type).load = .ok l₀)
    (ht : l₀.workspace.registry.userType? type = some t) (hgiven : Nameable t.variants given) :
    ((∃ l, d.load = .ok l) ↔ Clear t.variants given) ∧
    ∀ l, d.load = .ok l → ∃ n node bound, l.nodes[k]? = some (name, n) ∧
      l.workspace.graph.node? n = some node ∧ node.block = .caseOf type bound ∧
      bound = boundNames t.variants given ∧ (Full t.variants given → given <+: bound) := by
  obtain ⟨ws₁, ws₂, names, ws, ws', htypes, hfunctions, hnodes, hlinks, rfl⟩ := load_ok_iff.mp hload
  have hr : ws₂.Reachable := functions_reachable (types_reachable .empty htypes) hfunctions
  have hws : ws.Reachable := nodes_reachable hr hnodes
  rw [(resolved_kept (links_reachable hws hlinks)).1, (links_kept hws.sound.graph hlinks).1,
    nodes_registry hr hnodes] at ht
  obtain ⟨hiff, hnamed⟩ := nodes_given hr hk ht hgiven hnodes
  refine ⟨⟨?_, fun hclear => ?_⟩, fun l hl => ?_⟩
  · rintro ⟨l, hl⟩
    obtain ⟨_, _, names', wsn, _, htypes', hfunctions', hnodes', _, _⟩ := load_ok_iff.mp hl
    cases htypes.symm.trans htypes'
    cases hfunctions.symm.trans hfunctions'
    exact hiff.mp ⟨_, hnodes'⟩
  · obtain ⟨⟨names', wsn⟩, hnodes'⟩ := hiff.mpr hclear
    obtain ⟨rfl, n, _, hnamed⟩ := hnamed names' wsn hnodes'
    obtain ⟨wsl, hlinks'⟩ := links_named hnamed hws.sound.graph hlinks
    exact ⟨_, load_ok_iff.mpr
      ⟨ws₁, ws₂, names', wsn, wsl, htypes, hfunctions, hnodes', hlinks', rfl⟩⟩
  · obtain ⟨_, _, names', wsn, wsl, htypes', hfunctions', hnodes', hlinks', rfl⟩ :=
      load_ok_iff.mp hl
    cases htypes.symm.trans htypes'
    cases hfunctions.symm.trans hfunctions'
    obtain ⟨rfl, n, hn, hnamed⟩ := hnamed names' wsn hnodes'
    have hwsn : wsn.Reachable := nodes_reachable hr hnodes'
    have hown : (resolved names' wsl).workspace.cases? n =
        some (type, boundNames t.variants given) := by
      rw [(resolved_kept (links_reachable hwsn hlinks')).2,
        (links_kept hwsn.sound.graph hlinks').2, hnamed.own]
    obtain ⟨node, hnode, hblock⟩ := Workspace.cases?_eq_some_iff.mp hown
    exact ⟨n, node, _, hn, hnode, hblock, rfl, listed_of_full hgiven.branches⟩

/-- Distinguishes the only case of a pair, and puts the result into a list. -/
def unpack (given : List (List String)) : Description where
  functions := []
  types := [⟨"Pair", [⟨"Both", [.tree (.lit "Number" []), .text ""]⟩]⟩]
  nodes := [("unpack", .caseOf "Pair" given), ("results", .list 1)]
  links := [⟨"unpack", "results", 0⟩]

def pairType : UserType := ⟨"Pair", [⟨"Both", [some (.lit "Number" []), none]⟩]⟩

theorem load_unpack : ∃ l, (unpack []).load = .ok l ∧
    l.workspace.registry.userType? "Pair" = some pairType := by
  have htype : (unpack []).load.toOption.map (fun l => l.workspace.registry.userType? "Pair") =
      some (some pairType) := by
    unfold load unpack Loading.types Loading.variants attempt Workspace.defineType
    cbv
  cases hl : (unpack []).load with
  | error e =>
    rw [hl] at htype
    cases htype
  | ok l =>
    rw [hl] at htype
    exact ⟨l, rfl, Option.some_inj.mp htype⟩

theorem nameable_pair {x y : String} (hx : Workspace.isBinderName x = true)
    (hy : Workspace.isBinderName y = true) (hne : x ≠ y) :
    Nameable pairType.variants [[x, y]] ∧ Full pairType.variants [[x, y]] := by
  have hfull : Full pairType.variants [[x, y]] := by
    intro k v names hv hnames
    cases k with
    | zero =>
      cases hv
      cases hnames
      rfl
    | succ k => cases hnames
  refine ⟨⟨Nat.le_refl 1, fun k v names hv hnames => (hfull k v names hv hnames).le, ?_, ?_⟩, hfull⟩
  · simp [hx, hy]
  · simp [hne]

theorem load_given_names_unpack : ∃ l n node, (unpack [["x", "a"]]).load = .ok l ∧
    l.nodes[0]? = some ("unpack", n) ∧ l.workspace.graph.node? n = some node ∧
      node.block = .caseOf "Pair" [["x", "a"]] := by
  obtain ⟨l₀, hload, ht⟩ := load_unpack
  obtain ⟨hnameable, _⟩ := nameable_pair (x := "x") (y := "a") (by decide) (by decide) (by decide)
  have hclear : Clear pairType.variants [["x", "a"]] := by
    refine clear_cons.mpr ⟨fun i name hi => ?_, fun k v names hv => by cases hv⟩
    match i, hi with
    | 0, rfl => decide
    | 1, rfl => decide
  have hk : (unpack [["x", "a"]]).nodes[0]? = some ("unpack", .caseOf "Pair" [["x", "a"]]) := rfl
  obtain ⟨hiff, hnames⟩ := load_given_names hk hload ht hnameable
  obtain ⟨l, hl⟩ := hiff.mpr hclear
  obtain ⟨n, node, bound, hn, hnode, hblock, rfl, _⟩ := hnames l hl
  exact ⟨l, n, node, hl, hn, hnode, hblock⟩

/-- The names `b` and `a` for the two fields of a pair are refused: the second field is called `b`
when the first one is to get this name. -/
theorem exists_refused : ∃ l, ((unpack [["b", "a"]]).unnamed 0 "unpack" "Pair").load = .ok l ∧
    l.workspace.registry.userType? "Pair" = some pairType ∧
    Nameable pairType.variants [["b", "a"]] ∧ Full pairType.variants [["b", "a"]] ∧
    (unpack [["b", "a"]]).load = .error (.refused (.binderTaken "b")) := by
  obtain ⟨l, hload, ht⟩ := load_unpack
  obtain ⟨hnameable, hfull⟩ :=
    nameable_pair (x := "b") (y := "a") (by decide) (by decide) (by decide)
  refine ⟨l, hload, ht, hnameable, hfull, ?_⟩
  unfold load unpack Loading.types Loading.variants attempt Workspace.defineType
  cbv

end Description
end BlockGraph
