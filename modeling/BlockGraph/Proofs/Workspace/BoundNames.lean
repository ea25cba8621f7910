import BlockGraph.Proofs.Workspace.GivenNames
import BlockGraph.Proofs.Workspace.Resizing

/-!
# Names of fields last

The branches of a distinction of cases keep names for fields while the type changes.
Names go when their fields or branches go, and new fields get letters that the branch
does not use yet.  There is always such a letter among the first ones, because letters at
different places differ.  As long as the type is not known, nothing but a renaming touches
the names.

`CaseStep` says what an edit can do to the names of all distinctions of cases, and
`Rebound` what it does to those of one of them.  So the names of a branch always differ from each
other, and each of them stays until its field goes or gets another name.
-/

namespace BlockGraph

variable {names : List String}

/-! ## Unused names -/

theorem letters_nodup (count : Nat) : (letters count).Nodup :=
  List.nodup_range.map nthName_injective

/-- One of the letters up to the number of names is not among the names. -/
theorem unusedName_not_mem (names : List String) : unusedName names ∉ names := by
  have hfree : ∃ name ∈ letters (names.length + 1), name ∉ names := by
    by_contra hall
    push Not at hall
    have hle := ((letters_nodup (names.length + 1)).subperm hall).length_le
    rw [letters, List.length_map, List.length_range] at hle
    exact Nat.not_succ_le_self _ hle
  obtain ⟨name, hmem, hname⟩ := hfree
  have hsome : ((letters (names.length + 1)).find? fun name => name ∉ names).isSome = true :=
    List.find?_isSome.mpr ⟨name, hmem, decide_eq_true hname⟩
  obtain ⟨found, hfound⟩ := Option.isSome_iff_exists.mp hsome
  have hunused : unusedName names = found := (congrArg (Option.getD · _) hfound).trans rfl
  rw [hunused]
  simpa using List.find?_some hfound

theorem addNames_nodup (h : names.Nodup) (count : Nat) : (addNames count names).Nodup := by
  induction count generalizing names with
  | zero => exact h
  | succ count ih =>
    refine ih ?_
    rw [← List.concat_eq_append]
    exact h.concat (unusedName_not_mem names)

theorem prefix_addNames (count : Nat) (names : List String) : names <+: addNames count names := by
  induction count generalizing names with
  | zero => exact List.prefix_rfl
  | succ count ih => exact (List.prefix_append names _).trans (ih _)

theorem fitBranch_nodup (h : names.Nodup) (count : Nat) : (fitBranch count names).Nodup :=
  addNames_nodup (h.sublist (List.take_sublist count names)) _

theorem getElem?_fitBranch {count field : Nat} (hcount : field < count)
    (hfield : field < names.length) : (fitBranch count names)[field]? = names[field]? := by
  obtain ⟨more, hmore⟩ := prefix_addNames (count - names.length) (names.take count)
  have hlt : field < (names.take count).length := by
    rw [List.length_take]
    omega
  rw [fitBranch, ← hmore, List.getElem?_append_left hlt, List.getElem?_take, if_pos hcount]

theorem getElem?_fitBinders (variants : List Variant) (binders : List (List String)) (k : Nat) :
    (fitBinders variants binders)[k]? =
      variants[k]?.map fun v => fitBranch v.fields.length (binders[k]?.getD []) := by
  induction variants generalizing binders k with
  | nil => rfl
  | cons v rest ih =>
    cases k with
    | zero => cases binders <;> rfl
    | succ k =>
      rw [fitBinders, List.getElem?_cons_succ, ih, List.getElem?_cons_succ, List.getElem?_tail]

def NamesApart (binders : List (List String)) : Prop :=
  ∀ names ∈ binders, names.Nodup

theorem fitBinders_namesApart {binders : List (List String)} (h : NamesApart binders)
    (variants : List Variant) : NamesApart (fitBinders variants binders) := by
  intro names hmem
  obtain ⟨k, hk⟩ := List.mem_iff_getElem?.mp hmem
  rw [getElem?_fitBinders] at hk
  obtain ⟨v, _, rfl⟩ := Option.map_eq_some_iff.mp hk
  refine fitBranch_nodup ?_ _
  cases hbranch : binders[k]? with
  | none => exact List.nodup_nil
  | some given => exact h given (List.mem_of_getElem? hbranch)

theorem set_nodup (h : names.Nodup) {field : Nat} {name : String} (hfield : field < names.length)
    (hfree : name ∉ names.eraseIdx field) : (names.set field name).Nodup := by
  rw [List.set_eq_take_append_cons_drop, if_pos hfield, List.perm_middle.nodup_iff]
  rw [List.eraseIdx_eq_take_drop_succ] at hfree
  refine List.nodup_cons.mpr ⟨hfree, h.sublist ?_⟩
  rw [← List.eraseIdx_eq_take_drop_succ]
  exact List.eraseIdx_sublist names field

theorem Block.cases?_syncBinders (r : Registry) (block : Block) :
    (block.syncBinders r).cases? = block.cases?.map fun c =>
      (c.1, (r.userType? c.1).elim c.2 fun t => fitBinders t.variants c.2) := by
  cases block with
  | caseOf type binders =>
    rw [syncBinders, cases?, Option.map_some]
    cases r.userType? type <;> rfl
  | _ => rfl

namespace Workspace

variable {ws ws' : Workspace} {n : NodeId} {type : String} {binders binders' : List (List String)}
  {nodes : List NodeId} {action : Action} {known : Option UserType}

/-! ## One distinction of cases -/

/-- What an edit makes of the names of a distinction of cases.  The type is the one that it
distinguishes after the edit, if this is known. -/
inductive Rebound (action : Action) (n : NodeId) (known : Option UserType)
    (binders : List (List String)) : List (List String) → Prop
  | same : Rebound action n known binders binders
  | fitted {t : UserType} (ht : known = some t) :
      Rebound action n known binders (fitBinders t.variants binders)
  | renamed {branch field : Nat} {name : String} {names : List String}
      (haction : action = .renameBinder n branch field name)
      (hnames : binders[branch]? = some names) (hfield : field < names.length)
      (hfree : name ∉ names.eraseIdx field) :
      Rebound action n known binders (binders.set branch (names.set field name))

namespace Rebound

theorem namesApart (h : Rebound action n known binders binders') (hapart : NamesApart binders) :
    NamesApart binders' := by
  cases h with
  | same => exact hapart
  | fitted => exact fitBinders_namesApart hapart _
  | renamed _ hnames hfield hfree =>
    intro given hmem
    rcases List.mem_or_eq_of_mem_set hmem with hmem | rfl
    · exact hapart given hmem
    · exact set_nodup (hapart _ (List.mem_of_getElem? hnames)) hfield hfree

/-- A field that is there before and after keeps its name, unless it is the one that gets another
name. -/
theorem name_kept (h : Rebound action n known binders binders') {branch field : Nat}
    {names names' : List String} (hnames : binders[branch]? = some names)
    (hnames' : binders'[branch]? = some names') (hfield : field < names.length)
    (hfield' : field < names'.length)
    (haction : ∀ name, action ≠ .renameBinder n branch field name) :
    names'[field]? = names[field]? := by
  cases h with
  | same =>
    cases hnames.symm.trans hnames'
    rfl
  | @fitted t ht =>
    rw [getElem?_fitBinders, hnames, Option.getD_some] at hnames'
    obtain ⟨v, _, rfl⟩ := Option.map_eq_some_iff.mp hnames'
    rw [length_fitBranch] at hfield'
    exact getElem?_fitBranch hfield' hfield
  | @renamed branch₁ field₁ name names₁ heq hnames₁ _ _ =>
    rw [List.getElem?_set] at hnames'
    split at hnames'
    · next hbranch =>
      subst hbranch
      cases hnames.symm.trans hnames₁
      rw [if_pos (List.getElem?_eq_some_iff.mp hnames).1] at hnames'
      cases hnames'
      refine List.getElem?_set_ne fun hsame => ?_
      rw [hsame] at heq
      exact haction name heq
    · cases hnames.symm.trans hnames'
      rfl

/-- While the type is not known, no name comes or goes. -/
theorem map_length_of_unknown (h : Rebound action n known binders binders')
    (hknown : known = none) :
    binders'.map List.length = binders.map List.length := by
  cases h with
  | same => rfl
  | fitted ht => cases hknown.symm.trans ht
  | @renamed branch field name names _ hnames _ _ =>
    obtain ⟨hlt, hnames⟩ := List.getElem?_eq_some_iff.mp hnames
    have hself : (binders.map List.length).set branch names.length = binders.map List.length := by
      rw [← List.map_set, ← hnames, List.set_getElem_self]
    rw [List.map_set, List.length_set, hself]

end Rebound

/-! ## All distinctions of cases -/

/-- What an edit does to distinctions of cases. -/
inductive CaseStep (ws ws' : Workspace) : Action → Prop
  | added {block : Block} {n : NodeId} (hnew : ws.cases? n = none)
      (hcases : ∀ m, ws'.cases? m =
        if m = n then (block.syncBinders ws.registry).cases? else ws.cases? m) :
      CaseStep ws ws' (.addNode block)
  | removed {n : NodeId} (hcases : ∀ m, ws'.cases? m = if m = n then none else ws.cases? m) :
      CaseStep ws ws' (.removeNode n)
  | same {action : Action} (hcases : ∀ m, ws'.cases? m = ws.cases? m) : CaseStep ws ws' action
  | adjusted {action : Action} (h : Adjusted ws ws') : CaseStep ws ws' action
  | renamed {n : NodeId} {branch field : Nat} {name type : String} {binders : List (List String)}
      {names : List String} (hn : ws.cases? n = some (type, binders))
      (hnames : binders[branch]? = some names) (hfield : field < names.length)
      (hfree : name ∉ names.eraseIdx field)
      (hnamed : Named ws ws' n type (binders.set branch (names.set field name))) :
      CaseStep ws ws' (.renameBinder n branch field name)

theorem removeNode_cases? (h : ws.Sound) {errors : List TypeError}
    (hok : removeNode n ws = .ok errors ws') (m : NodeId) :
    ws'.cases? m = if m = n then none else ws.cases? m := by
  rw [cases?, Graph.node?, removeNode_nodes h hok, Slots.get?_erase]
  split
  · rfl
  · rfl

theorem disconnect_cases? (h : ws.Sound) {o i : SocketId} {errors : List TypeError}
    (hok : disconnect o i ws = .ok errors ws') (m : NodeId) : ws'.cases? m = ws.cases? m := by
  rw [cases?, Graph.node?, disconnect_nodes h hok, cases?, Graph.node?]

theorem Action.run_caseStep (h : ws.Sound) (hrun : action.run ws = some ws') :
    CaseStep ws ws' action := by
  by_cases hadjusts : action.adjusts = true
  · exact .adjusted (action.run_adjusted h hadjusts hrun)
  cases action with
  | addNode block =>
    have hrun : after? (Workspace.addNode block) ws = some ws' := hrun
    obtain ⟨n, hok⟩ := after?_eq_some hrun
    obtain ⟨hnew, _, _, _, hcases⟩ := addNode_spec h hok
    exact .added (by rw [cases?, hnew]; rfl) hcases
  | removeNode n =>
    obtain ⟨_, hok⟩ := after?_eq_some hrun
    exact .removed (removeNode_cases? h hok)
  | connect o i =>
    obtain ⟨_, hok⟩ := after?_eq_some hrun
    obtain ⟨p, c, z, _, _, _, hm⟩ := connect_ok h.graph hok
    exact .same fun m => hm.sameShape.cases? m
  | disconnect o i =>
    obtain ⟨_, hok⟩ := after?_eq_some hrun
    exact .same (disconnect_cases? h hok)
  | attach o i =>
    obtain ⟨_, hok⟩ := after?_eq_some hrun
    obtain ⟨_, rfl⟩ := attach_ok hok
    exact .same fun _ => rfl
  | resolveAll =>
    cases hrun
    exact .same (resolveAll_sameShape h).cases?
  | renameBinder n branch field name =>
    obtain ⟨_, hok⟩ := after?_eq_some hrun
    obtain ⟨type, binders, names, hn, hnames, hfield, _, hfree, hnamed⟩ :=
      renameBinder_named h.graph hok
    exact .renamed hn hnames hfield hfree hnamed
  | _ => exact absurd rfl hadjusts

theorem Resized.cases? (h : Resized ws ws' nodes) (n : NodeId) :
    ws'.cases? n = ws.cases? n ∨ ws'.cases? n = (ws.cases? n).map fun c =>
      (c.1, (ws'.registry.userType? c.1).elim c.2 fun t => fitBinders t.variants c.2) := by
  by_cases hmem : n ∈ nodes
  · cases hn : ws.graph.node? n with
    | none =>
      refine .inl ?_
      rw [Workspace.cases?, Workspace.cases?, hn, h.absent hn]
    | some node =>
      obtain ⟨_, node', hn', hfollows⟩ := h.listed n hmem node hn
      have hblock : node'.block = node.block.syncBinders ws.registry := by
        cases hfollows.installed <;> rfl
      refine .inr ?_
      rw [Workspace.cases?, Workspace.cases?, hn, hn', Option.bind_some, Option.bind_some, hblock,
        h.registry, Block.cases?_syncBinders]
  · refine .inl ?_
    rw [Workspace.cases?, Workspace.cases?, h.other n hmem]

namespace CaseStep

/-- A distinction of cases stays one until its node is removed. -/
theorem rebound (h : CaseStep ws ws' action) (hn : ws.cases? n = some (type, binders)) :
    (action = .removeNode n ∧ ws'.cases? n = none) ∨
      ∃ type' binders', ws'.cases? n = some (type', binders') ∧
        Rebound action n (ws'.registry.userType? type') binders binders' := by
  cases h with
  | @added block m hnew hcases =>
    have hne : n ≠ m := by
      rintro rfl
      cases hn.symm.trans hnew
    exact .inr ⟨type, binders, by rw [hcases, if_neg hne, hn], .same⟩
  | @removed m hcases =>
    by_cases hne : n = m
    · exact .inl ⟨by rw [hne], by rw [hcases, if_pos hne]⟩
    · exact .inr ⟨type, binders, by rw [hcases, if_neg hne, hn], .same⟩
  | same hcases => exact .inr ⟨type, binders, (hcases n).trans hn, .same⟩
  | adjusted h =>
    obtain ⟨ws₀, nodes, _, hbinders, hresized⟩ := h
    have hsame : (ws₀.cases? n).map Prod.snd = some binders := by
      refine (hbinders n).trans ?_
      rw [binders?, hn, Option.map_some]
    obtain ⟨⟨type₀, binders₀⟩, hn₀, hbinders₀⟩ := Option.map_eq_some_iff.mp hsame
    have hbinders₀ : binders₀ = binders := hbinders₀
    subst hbinders₀
    rcases hresized.cases? n with hn' | hn'
    · exact .inr ⟨type₀, binders₀, hn'.trans hn₀, .same⟩
    · rw [hn₀, Option.map_some] at hn'
      refine .inr ⟨type₀, _, hn', ?_⟩
      cases ht : ws'.registry.userType? type₀ with
      | none => exact .same
      | some t => exact .fitted rfl
  | @renamed m branch field name type₁ binders₁ names hm hnames hfield hfree hnamed =>
    by_cases hne : n = m
    · subst hne
      cases hn.symm.trans hm
      exact .inr ⟨type, _, hnamed.own, .renamed rfl hnames hfield hfree⟩
    · exact .inr ⟨type, binders, (hnamed.others n hne).trans hn, .same⟩

/-- A distinction of cases that was not there before is the node that has been added. -/
theorem eq_addNode (h : CaseStep ws ws' action) (hn : ws.cases? n = none)
    (hn' : ws'.cases? n = some (type, binders)) :
    ∃ given, action = .addNode (.caseOf type given) ∧
      (binders = given ∨ ∃ t : UserType, binders = fitBinders t.variants given) := by
  cases h with
  | @added block m hnew hcases =>
    rw [hcases] at hn'
    split at hn'
    · rw [Block.cases?_syncBinders] at hn'
      cases block with
      | caseOf type₁ given =>
        rw [Block.cases?, Option.map_some] at hn'
        cases ht : ws.registry.userType? type₁ with
        | none =>
          rw [ht] at hn'
          cases hn'
          exact ⟨given, rfl, .inl rfl⟩
        | some t =>
          rw [ht] at hn'
          cases hn'
          exact ⟨given, rfl, .inr ⟨t, rfl⟩⟩
      | _ => cases hn'
    · cases hn.symm.trans hn'
  | @removed m hcases =>
    rw [hcases, hn] at hn'
    split at hn' <;> cases hn'
  | same hcases => cases hn.symm.trans ((hcases n).symm.trans hn')
  | adjusted h =>
    obtain ⟨ws₀, nodes, _, hbinders, hresized⟩ := h
    have hn₀ : ws₀.cases? n = none := by
      refine Option.map_eq_none_iff.mp ((hbinders n).trans ?_)
      rw [binders?, hn, Option.map_none]
    rcases hresized.cases? n with heq | heq
    · cases hn'.symm.trans (heq.trans hn₀)
    · rw [hn₀] at heq
      cases hn'.symm.trans heq
  | @renamed m branch field name type₁ binders₁ names hm hnames hfield hfree hnamed =>
    have hne : n ≠ m := by
      rintro rfl
      cases hn.symm.trans hm
    cases hn.symm.trans ((hnamed.others n hne).symm.trans hn')

end CaseStep

/-! ## Runs -/

/-- Nodes that come in bring no names for fields, or names that differ within each branch. -/
def Action.NamesApart (action : Action) : Prop :=
  ∀ type binders, action = .addNode (.caseOf type binders) → BlockGraph.NamesApart binders

/-- The workspaces that such edits lead to, if none of them is refused. -/
inductive ReachedApart : Workspace → Prop
  | empty : ReachedApart empty
  | run {ws ws' : Workspace} {action : Action} (h : ReachedApart ws) (hapart : action.NamesApart)
      (hrun : action.run ws = some ws') : ReachedApart ws'
  | clear {ws ws' : Workspace} (h : ReachedApart ws) (hok : clear ws = .ok () ws') :
      ReachedApart ws'

namespace ReachedApart

theorem reachable (h : ws.ReachedApart) : ws.Reachable := by
  induction h with
  | empty => exact .empty
  | run _ _ hrun ih => exact ih.run hrun
  | clear _ hok ih => exact ih.clear hok

theorem runAll {actions : List Action} (h : ws.ReachedApart)
    (hapart : ∀ action ∈ actions, action.NamesApart) (hrun : ws.runAll actions = some ws') :
    ws'.ReachedApart :=
  runAll_kept (fun action hmem _ _ hws hstep => hws.run (hapart action hmem) hstep) h hrun

theorem namesApart (h : ws.ReachedApart) (hn : ws.cases? n = some (type, binders)) :
    BlockGraph.NamesApart binders := by
  induction h generalizing n type binders with
  | empty =>
    obtain ⟨node, hnode, _⟩ := cases?_eq_some_iff.mp hn
    cases (empty_node? n).symm.trans hnode
  | @run ws ws' action h hapart hrun ih =>
    have hstep := action.run_caseStep h.reachable.sound hrun
    cases hold : ws.cases? n with
    | none =>
      obtain ⟨given, rfl, hbinders⟩ := hstep.eq_addNode hold hn
      have hgiven := hapart type given rfl
      rcases hbinders with rfl | ⟨t, rfl⟩
      · exact hgiven
      · exact fitBinders_namesApart hgiven t.variants
    | some c =>
      rcases hstep.rebound hold with ⟨_, hgone⟩ | ⟨_, _, hn', hrebound⟩
      · cases hn.symm.trans hgone
      · cases hn.symm.trans hn'
        exact hrebound.namesApart (ih hold)
  | clear _ hok _ =>
    obtain ⟨node, hnode, _⟩ := cases?_eq_some_iff.mp hn
    cases (clear_node? hok n).symm.trans hnode

end ReachedApart

/-- In every branch the names of fields differ.  If the type is known, there is a branch for each
variant and a name for each field of it.  An edit leaves a field its name unless it removes the
field or is about this name, and while the type is not known, no name comes or goes. -/
theorem names_of_fields (h : ws.ReachedApart) :
    (∀ n type binders, ws.cases? n = some (type, binders) →
      (∀ names ∈ binders, names.Nodup) ∧
      ∀ t, ws.registry.userType? type = some t →
        binders.map List.length = t.variants.map fun v => v.fields.length) ∧
    ∀ (action : Action) ws' n type binders, action.run ws = some ws' →
      ws.cases? n = some (type, binders) → action ≠ .removeNode n →
      ∃ type' binders', ws'.cases? n = some (type', binders') ∧
        (ws'.registry.userType? type' = none →
          binders'.map List.length = binders.map List.length) ∧
        ∀ (branch field : Nat) (names names' : List String), binders[branch]? = some names →
          binders'[branch]? = some names' → field < names.length → field < names'.length →
          (∀ name, action ≠ .renameBinder n branch field name) →
          names'[field]? = names[field]? := by
  refine ⟨fun n type binders hn => ⟨h.namesApart hn, fun t ht => ?_⟩,
    fun action ws' n type binders hrun hn hstays => ?_⟩
  · obtain ⟨node, hnode, hblock⟩ := cases?_eq_some_iff.mp hn
    exact h.reachable.namesFields n node hnode type binders t hblock ht
  · have hstep := action.run_caseStep h.reachable.sound hrun
    obtain ⟨type', binders', hn', hrebound⟩ :=
      (hstep.rebound hn).resolve_left fun hremoved => hstays hremoved.1
    exact ⟨type', binders', hn', hrebound.map_length_of_unknown,
      fun branch field names names' => hrebound.name_kept⟩

/-- A distinction of the only case of a pair, whose first field gets the name `c`. -/
def renamedPair : List Action :=
  [.defineType "Pair" [⟨"Both", [none, none]⟩], .addNode (.caseOf "Pair" []),
    .renameBinder 0 0 0 "c"]

/-- A third field gets the first letter that is left, and the other fields keep their names. -/
theorem names_of_fields_renamedPair :
    ∃ ws ws' : Workspace, empty.runAll renamedPair = some ws ∧ ws.ReachedApart ∧
      (Action.setFieldCount "Pair" 0 3).run ws = some ws' ∧
      ws.cases? 0 = some ("Pair", [["c", "b"]]) ∧ ["c", "b"].Nodup ∧
      ∃ names', ws'.cases? 0 = some ("Pair", [names']) ∧ names' = ["c", "b", "a"] ∧
        names'[1]? = ["c", "b"][1]? := by
  have hcheck : ((empty.runAll renamedPair).any fun ws =>
      ((Action.setFieldCount "Pair" 0 3).run ws).any fun ws' =>
        ws.cases? 0 = some ("Pair", [["c", "b"]]) &&
        ws'.cases? 0 = some ("Pair", [["c", "b", "a"]])) = true := by
    simp only [renamedPair, runAll, Action.run_defineType]
    cbv
  simp only [Option.any_eq_true, Bool.and_eq_true, decide_eq_true_eq] at hcheck
  obtain ⟨ws, hws, ws', hrun, hn, hn'⟩ := hcheck
  have hapart : ws.ReachedApart := by
    refine ReachedApart.empty.runAll (fun action hmem type binders haction => ?_) hws
    subst haction
    simp only [renamedPair, List.mem_cons, reduceCtorEq, Action.addNode.injEq, Block.caseOf.injEq,
      List.not_mem_nil, or_false, false_or] at hmem
    rw [hmem.2]
    exact fun names hnames => absurd hnames List.not_mem_nil
  obtain ⟨hbinders, hkept⟩ := names_of_fields hapart
  obtain ⟨type', binders', hn'', _, hnames⟩ :=
    hkept (.setFieldCount "Pair" 0 3) ws' 0 "Pair" _ hrun hn (by simp)
  cases hn'.symm.trans hn''
  refine ⟨ws, ws', hws, hapart, hrun, hn, (hbinders 0 "Pair" _ hn).1 _ List.mem_cons_self, _, hn',
    rfl, ?_⟩
  exact hnames 0 1 _ _ rfl rfl (by decide) (by decide) (by simp)

end Workspace
end BlockGraph
