import BlockGraph.Proofs.Ty.Names
import BlockGraph.Proofs.Workspace.Branches
import BlockGraph.Proofs.Workspace.LoadOrder

/-!
# Names of fields

The fields of a new distinction of cases are called by letters.  Then names are given to
them one after another, and each name must differ from the names that the other fields of
its branch have at that moment.  So a name is refused if it is the letter of a later field, although
that field may be about to get another name (`branches_spec`).  Names that are given change
the names of one node and nothing else, up to types (`Named`).
-/

namespace BlockGraph

variable {binders : List (List String)} {variants : List Variant}

/-! ## Names of fields that get none -/

/-- The names of the fields of a branch to which no names are given. -/
def letters (count : Nat) : List String :=
  (List.range count).map nthName

theorem letters_succ (count : Nat) : letters (count + 1) = letters count ++ [nthName count] := by
  rw [letters, List.range_succ, List.map_append, List.map_singleton, letters]

theorem nthName_mem_letters {k count : Nat} : nthName k ∈ letters count ↔ k < count := by
  rw [letters, List.mem_map_of_injective nthName_injective, List.mem_range]

theorem mem_drop_letters {name : String} {k count : Nat} :
    name ∈ (letters count).drop k ↔ ∃ j, k ≤ j ∧ j < count ∧ name = nthName j := by
  rw [List.mem_drop_iff_getElem]
  simp only [letters, List.length_map, List.length_range, List.getElem_map, List.getElem_range]
  constructor
  · rintro ⟨i, hi, rfl⟩
    exact ⟨k + i, Nat.le_add_right k i, by omega, rfl⟩
  · rintro ⟨j, hkj, hj, rfl⟩
    exact ⟨j - k, by omega, by rw [Nat.add_sub_cancel' hkj]⟩

theorem unusedName_letters (count : Nat) : unusedName (letters count) = nthName count := by
  have hused : (letters count).find? (fun name => decide (name ∉ letters count)) = none := by
    simp
  have hfree : nthName count ∉ letters count := by
    rw [nthName_mem_letters]
    exact Nat.lt_irrefl count
  have hcandidates : (List.range ((letters count).length + 1)).map nthName =
      letters count ++ [nthName count] := by
    rw [← letters_succ, letters, letters, List.length_map, List.length_range]
  rw [unusedName, hcandidates, List.find?_append, hused, Option.none_or,
    List.find?_cons_of_pos (by simpa using hfree), Option.getD_some]

theorem addNames_letters (count k : Nat) : addNames count (letters k) = letters (k + count) := by
  induction count generalizing k with
  | zero => rfl
  | succ count ih =>
    rw [addNames, unusedName_letters, ← letters_succ, ih, Nat.add_assoc, Nat.add_comm 1]

theorem fitBinders_nil (variants : List Variant) :
    fitBinders variants [] = variants.map fun v => letters v.fields.length := by
  induction variants with
  | nil => rfl
  | cons v rest ih =>
    have hbranch : fitBranch v.fields.length [] = letters v.fields.length := by
      rw [fitBranch, List.length_nil, Nat.sub_zero, List.take_nil]
      exact (addNames_letters v.fields.length 0).trans (by rw [Nat.zero_add])
    rw [List.map_cons, ← ih, ← hbranch]
    rfl

/-- The names of a branch: those that are given, and letters for the fields that are left. -/
def branchNames (count : Nat) (names : List String) : List String :=
  names ++ (letters count).drop names.length

def boundNames : List Variant → List (List String) → List (List String)
  | [], _ => []
  | v :: variants, binders =>
    branchNames v.fields.length (binders.headD []) :: boundNames variants binders.tail

theorem boundNames_nil (variants : List Variant) :
    boundNames variants [] = variants.map fun v => letters v.fields.length := by
  induction variants with
  | nil => rfl
  | cons v rest ih => exact congrArg (List.cons _) ih

/-- The branches that get names get one for every field. -/
def Full (variants : List Variant) (binders : List (List String)) : Prop :=
  ∀ (k : Nat) (v : Variant) (names : List String), variants[k]? = some v →
    binders[k]? = some names → names.length = v.fields.length

/-- Where every field gets a name, no letter is left. -/
theorem listed_of_full (hlen : binders.length ≤ variants.length) (hfull : Full variants binders) :
    binders <+: boundNames variants binders := by
  induction binders generalizing variants with
  | nil => exact ⟨_, rfl⟩
  | cons names rest ih =>
    cases variants with
    | nil => cases hlen
    | cons v variants =>
      have hleft : branchNames v.fields.length names = names := by
        simp [branchNames, letters, hfull 0 v names rfl rfl]
      rw [boundNames, List.headD_cons, List.tail_cons, hleft]
      obtain ⟨left, hleft⟩ := ih (Nat.le_of_succ_le_succ hlen) fun k => hfull (k + 1)
      exact ⟨left, congrArg (List.cons names) hleft⟩

/-- Names that a description may give to the fields of branches. -/
structure Nameable (variants : List Variant) (binders : List (List String)) : Prop where
  branches : binders.length ≤ variants.length
  fields : ∀ (k : Nat) (v : Variant) (names : List String), variants[k]? = some v →
    binders[k]? = some names → names.length ≤ v.fields.length
  valid : ∀ names ∈ binders, ∀ name ∈ names, Workspace.isBinderName name = true
  nodup : ∀ names ∈ binders, names.Nodup

theorem nameable_cons {v : Variant} {names : List String}
    (h : Nameable (v :: variants) (names :: binders)) :
    Nameable variants binders where
  branches := Nat.le_of_succ_le_succ h.branches
  fields k := h.fields (k + 1)
  valid names hmem := h.valid names (List.mem_cons_of_mem _ hmem)
  nodup names hmem := h.nodup names (List.mem_cons_of_mem _ hmem)

/-- No name that is given to a field of a branch is the letter of a later field. -/
def Clear (variants : List Variant) (binders : List (List String)) : Prop :=
  ∀ (k : Nat) (v : Variant) (names : List String), variants[k]? = some v →
    binders[k]? = some names →
      ∀ i j : Nat, i < j → j < v.fields.length → names[i]? ≠ some (nthName j)

theorem clear_cons {v : Variant} {names : List String} :
    Clear (v :: variants) (names :: binders) ↔
      (∀ (i : Nat) (name : String), names[i]? = some name →
        name ∉ (letters v.fields.length).drop (i + 1)) ∧ Clear variants binders := by
  constructor
  · intro h
    refine ⟨fun i name hi hmem => ?_, fun k => h (k + 1)⟩
    obtain ⟨j, hij, hj, rfl⟩ := mem_drop_letters.mp hmem
    exact h 0 v names rfl rfl i j hij hj hi
  · rintro ⟨hfirst, hrest⟩ k u names' hu hnames' i j hij hj hi
    cases k with
    | zero =>
      cases hu
      cases hnames'
      exact hfirst i _ hi (mem_drop_letters.mpr ⟨j, hij, hj, rfl⟩)
    | succ k => exact hrest k u names' hu hnames' i j hij hj hi

/-! ## Workspaces that differ in the names of one node -/

/-- The type and the names of a distinction of cases. -/
def Block.cases? : Block → Option (String × List (List String))
  | caseOf type binders => some (type, binders)
  | _ => none

namespace Workspace

variable {branch field : Nat} {name : String}

variable {ws ws' ws₀ ws₁ ws₁' : Workspace} {n m : NodeId} {node : Node} {type type' : String}
  {binders bound bound' : List (List String)} {block : Block}

def cases? (ws : Workspace) (n : NodeId) : Option (String × List (List String)) :=
  (ws.graph.node? n).bind fun node => node.block.cases?

theorem cases?_eq_some_iff : ws.cases? n = some (type, binders) ↔
    ∃ node, ws.graph.node? n = some node ∧ node.block = .caseOf type binders := by
  rw [cases?, Option.bind_eq_some_iff]
  refine exists_congr fun node => and_congr_right fun _ => ?_
  cases node.block <;> simp [Block.cases?]

theorem SameShape.cases? (h : SameShape ws ws') (n : NodeId) : ws'.cases? n = ws.cases? n := by
  rw [Workspace.cases?, h.node?, Workspace.cases?]

/-- The workspace `ws'` is like `ws`, up to types, but in the distinction of cases `n` the fields
have the names `bound`. -/
structure Named (ws ws' : Workspace) (n : NodeId) (type : String) (bound : List (List String)) :
    Prop where
  registry : ws'.registry = ws.registry
  outline : ws'.graph.outline = ws.graph.outline
  others : ∀ m, m ≠ n → ws'.cases? m = ws.cases? m
  own : ws'.cases? n = some (type, bound)

namespace Named

theorem refl (h : ws.cases? n = some (type, bound)) : Named ws ws n type bound :=
  ⟨rfl, rfl, fun _ _ => rfl, h⟩

theorem trans (h : Named ws₀ ws n type bound) (h' : Named ws ws' n type' bound') :
    Named ws₀ ws' n type' bound' :=
  ⟨h'.registry.trans h.registry, h'.outline.trans h.outline,
    fun m hm => (h'.others m hm).trans (h.others m hm), h'.own⟩

/-- Names that are given at another node are given in both workspaces. -/
theorem after (h : Named ws ws' n type bound) (hmn : m ≠ n) (h₁ : Named ws ws₁ m type' bound')
    (h₁' : Named ws' ws₁' m type' bound') : Named ws₁ ws₁' n type bound := by
  refine ⟨?_, ?_, fun k hk => ?_, (h₁'.others n hmn.symm).trans h.own⟩
  · rw [h₁'.registry, h.registry, h₁.registry]
  · rw [h₁'.outline, h.outline, h₁.outline]
  · by_cases hkm : k = m
    · rw [hkm, h₁.own, h₁'.own]
    · rw [h₁'.others k hkm, h.others k hk, h₁.others k hkm]

end Named

/-! ## Giving one name -/

/-- A field gets a name that is legal and that no other field of its branch has. -/
theorem renameBinder_of_free {names : List String} (hn : ws.cases? n = some (type, binders))
    (hnames : binders[branch]? = some names) (hfield : field < names.length)
    (hvalid : isBinderName name = true) (hfree : name ∉ names.eraseIdx field) :
    ∃ ws', renameBinder n branch field name ws = .ok name ws' := by
  obtain ⟨node, hnode, hblock⟩ := cases?_eq_some_iff.mp hn
  simp only [renameBinder, hnode, hblock, hnames, if_neg (Nat.not_le.mpr hfield), hvalid, hfree]
  exact ⟨_, rfl⟩

theorem renameBinder_named (h : ws.graph.WellFormed) {given : String}
    (hok : renameBinder n branch field name ws = .ok given ws') :
    ∃ type binders names, ws.cases? n = some (type, binders) ∧ binders[branch]? = some names ∧
      field < names.length ∧ isBinderName name = true ∧ name ∉ names.eraseIdx field ∧
        Named ws ws' n type (binders.set branch (names.set field name)) := by
  obtain ⟨node, type, binders, names, hn, hblock, hnames, hws⟩ := renameBinder_eq hok
  have hchecked : field < names.length ∧ isBinderName name = true ∧
      name ∉ names.eraseIdx field := by
    simp only [renameBinder, hn, hblock, hnames] at hok
    split at hok
    · cases hok
    next hfield =>
    split at hok
    · cases hok
    next hvalid =>
    split at hok
    · cases hok
    next hfree => exact ⟨Nat.not_le.mp hfield, by simpa using hvalid, hfree⟩
  refine ⟨type, binders, names, cases?_eq_some_iff.mpr ⟨node, hn, hblock⟩, hnames, hchecked.1,
    hchecked.2.1, hchecked.2.2, ?_⟩
  let block : Block := .caseOf type (binders.set branch (names.set field name))
  let graph := ws.graph.modifyNode n fun node => { node with block }
  have houtline : graph.outline = ws.graph.outline :=
    Graph.outline_modifyNode ws.graph n fun _ => rfl
  have hnode : ∀ m, graph.node? m =
      if m = n then some { node with block } else ws.graph.node? m :=
    Graph.node?_modifyNode hn _
  have hshape : SameShape { ws with graph } ws' :=
    hws ▸ (recompute_redrawn ((Graph.wellFormed_congr houtline).mpr h) [node.output]).sameShape
  refine ⟨hshape.registry, hshape.outline.trans houtline, fun m hm => ?_, ?_⟩
  · rw [hshape.cases?, cases?, hnode, if_neg hm, cases?]
  · rw [hshape.cases?, cases?, hnode, if_pos rfl]
    rfl

/-- A legal name is given just if no other field of its branch has it. -/
theorem renameBinder_spec (h : ws.graph.WellFormed) {names : List String}
    (hn : ws.cases? n = some (type, binders)) (hnames : binders[branch]? = some names)
    (hfield : field < names.length) (hvalid : isBinderName name = true) :
    ((∃ given ws', renameBinder n branch field name ws = .ok given ws') ↔
      name ∉ names.eraseIdx field) ∧
    ∀ given ws', renameBinder n branch field name ws = .ok given ws' →
      Named ws ws' n type (binders.set branch (names.set field name)) := by
  have hok : ∀ given ws', renameBinder n branch field name ws = .ok given ws' →
      name ∉ names.eraseIdx field ∧
        Named ws ws' n type (binders.set branch (names.set field name)) := by
    intro given ws' hok
    obtain ⟨type', binders', names', hn', hnames', _, _, hfree, hnamed⟩ := renameBinder_named h hok
    cases hn.symm.trans hn'
    cases hnames.symm.trans hnames'
    exact ⟨hfree, hnamed⟩
  refine ⟨⟨fun ⟨given, ws', hrename⟩ => (hok given ws' hrename).1, fun hfree => ?_⟩,
    fun given ws' hrename => (hok given ws' hrename).2⟩
  exact ⟨name, renameBinder_of_free hn hnames hfield hvalid hfree⟩

end Workspace

/-! ## Giving all names of a node -/

namespace Loading

open Workspace

variable {ws ws' ws₁ : Workspace} {n : NodeId} {type : String} {b place : Nat}
  {binders : List (List String)} {variants : List Variant}

theorem branch_cons_iff {name : String} {rest : List String} :
    branch n b place (name :: rest) ws = .ok ws' ↔
      ∃ given ws₁, renameBinder n b place name ws = .ok given ws₁ ∧
        branch n b (place + 1) rest ws₁ = .ok ws' := by
  constructor
  · intro hok
    obtain ⟨⟨given, ws₁⟩, hattempt, hok⟩ := bind_eq_ok hok
    exact ⟨given, ws₁, attempt_ok hattempt, hok⟩
  · rintro ⟨given, ws₁, hrename, hrest⟩
    rw [branch, attempt, hrename]
    exact hrest

theorem branches_cons_iff {names : List String} {rest : List (List String)} :
    branches n place (names :: rest) ws = .ok ws' ↔
      ∃ ws₁, branch n place 0 names ws = .ok ws₁ ∧ branches n (place + 1) rest ws₁ = .ok ws' := by
  constructor
  · intro hok
    exact bind_eq_ok hok
  · rintro ⟨ws₁, hbranch, hrest⟩
    rw [branches, hbranch]
    exact hrest

/-- The names of a branch are given from the left.  Each must differ from the names that the later
fields have until it is their turn. -/
theorem branch_spec (h : ws.graph.WellFormed) (hown : ws.cases? n = some (type, binders))
    {done current given : List String} (hbranch : binders[b]? = some (done ++ current))
    (hlen : given.length ≤ current.length) (hvalid : ∀ name ∈ given, isBinderName name = true)
    (hnodup : (done ++ given).Nodup) :
    ((∃ ws', branch n b done.length given ws = .ok ws') ↔
      ∀ (i : Nat) (name : String), given[i]? = some name → name ∉ current.drop (i + 1)) ∧
    ∀ ws', branch n b done.length given ws = .ok ws' →
      Named ws ws' n type (binders.set b (done ++ given ++ current.drop given.length)) := by
  induction given generalizing ws binders done current with
  | nil =>
    refine ⟨iff_of_true ⟨ws, rfl⟩ fun i name hi => ?_, fun ws' hok => ?_⟩
    · cases hi
    cases hok
    obtain ⟨hb, hget⟩ := List.getElem?_eq_some_iff.mp hbranch
    rw [List.append_nil, List.length_nil, List.drop_zero, ← hget, List.set_getElem_self]
    exact .refl hown
  | cons name rest ih =>
    cases current with
    | nil => cases hlen
    | cons letter current =>
      have hdone : name ∉ done := fun hmem =>
        (List.nodup_append.mp hnodup).2.2 name hmem name List.mem_cons_self rfl
      have herase : (done ++ letter :: current).eraseIdx done.length = done ++ current := by
        simp [List.eraseIdx_append_of_length_le]
      have hset : (done ++ letter :: current).set done.length name = done ++ [name] ++ current := by
        simp
      have hfield : done.length < (done ++ letter :: current).length := by simp
      obtain ⟨hfirst, hnamed⟩ := renameBinder_spec h hown hbranch hfield
        (hvalid name List.mem_cons_self)
      rw [herase, List.mem_append, or_iff_right hdone] at hfirst
      rw [hset] at hnamed
      -- What the rest does once the first name has been given.
      have hrest : ∀ given ws₁, renameBinder n b done.length name ws = .ok given ws₁ →
          ((∃ ws', branch n b (done.length + 1) rest ws₁ = .ok ws') ↔
            ∀ (i : Nat) (name : String), rest[i]? = some name → name ∉ current.drop (i + 1)) ∧
          ∀ ws', branch n b (done.length + 1) rest ws₁ = .ok ws' → Named ws₁ ws' n type
            (binders.set b (done ++ [name] ++ rest ++ current.drop rest.length)) := by
        intro given ws₁ hrename
        have hnamed := hnamed given ws₁ hrename
        have hb := (List.getElem?_eq_some_iff.mp hbranch).1
        have hspec := ih ((Graph.wellFormed_congr hnamed.outline).mpr h) hnamed.own
          (List.getElem?_set_self hb) (Nat.le_of_succ_le_succ hlen)
          (fun x hx => hvalid x (List.mem_cons_of_mem _ hx)) (by simpa using hnodup)
        rwa [List.length_append, List.length_singleton, List.set_set] at hspec
      constructor
      · constructor
        · rintro ⟨ws', hok⟩
          obtain ⟨given, ws₁, hrename, hbranch⟩ := branch_cons_iff.mp hok
          intro i x hi
          cases i with
          | zero =>
            cases hi
            exact hfirst.mp ⟨given, ws₁, hrename⟩
          | succ i => exact (hrest given ws₁ hrename).1.mp ⟨ws', hbranch⟩ i x hi
        · intro hclear
          obtain ⟨given, ws₁, hrename⟩ := hfirst.mpr (hclear 0 name rfl)
          obtain ⟨ws', hbranch⟩ := (hrest given ws₁ hrename).1.mpr fun i => hclear (i + 1)
          exact ⟨ws', branch_cons_iff.mpr ⟨given, ws₁, hrename, hbranch⟩⟩
      · intro ws' hok
        obtain ⟨given, ws₁, hrename, hbranch⟩ := branch_cons_iff.mp hok
        have hnamed := (hnamed given ws₁ hrename).trans ((hrest given ws₁ hrename).2 ws' hbranch)
        rwa [List.append_assoc done] at hnamed

/-- The names of all branches are given if none of them is the letter of a later field. -/
theorem branches_spec (h : ws.graph.WellFormed) {done given : List (List String)}
    (hown : ws.cases? n = some (type, done ++ boundNames variants []))
    (hnames : Nameable variants given) :
    ((∃ ws', branches n done.length given ws = .ok ws') ↔ Clear variants given) ∧
    ∀ ws', branches n done.length given ws = .ok ws' →
      Named ws ws' n type (done ++ boundNames variants given) := by
  induction given generalizing ws variants done with
  | nil =>
    refine ⟨iff_of_true ⟨ws, rfl⟩ fun k v names _ hk => ?_, fun ws' hok => ?_⟩
    · cases hk
    cases hok
    exact .refl hown
  | cons names rest ih =>
    cases variants with
    | nil => cases hnames.branches
    | cons v variants =>
      have hbranch : (done ++ boundNames (v :: variants) [])[done.length]? =
          some ([] ++ letters v.fields.length) := by
        rw [List.getElem?_append_right (Nat.le_refl _), Nat.sub_self]
        rfl
      have hset : (done ++ boundNames (v :: variants) []).set done.length
          ([] ++ names ++ (letters v.fields.length).drop names.length) =
            done ++ [branchNames v.fields.length names] ++ boundNames variants [] := by
        simp [boundNames, branchNames]
      have hlen : names.length ≤ (letters v.fields.length).length := by
        rw [letters, List.length_map, List.length_range]
        exact hnames.fields 0 v names rfl rfl
      obtain ⟨hfirst, hnamed⟩ := branch_spec h hown hbranch hlen
        (hnames.valid names List.mem_cons_self) (hnames.nodup names List.mem_cons_self)
      rw [hset] at hnamed
      -- What the rest does once the names of the first branch have been given.
      have hrest : ∀ ws₁, branch n done.length 0 names ws = .ok ws₁ →
          ((∃ ws', branches n (done.length + 1) rest ws₁ = .ok ws') ↔ Clear variants rest) ∧
          ∀ ws', branches n (done.length + 1) rest ws₁ = .ok ws' → Named ws₁ ws' n type
            (done ++ [branchNames v.fields.length names] ++ boundNames variants rest) := by
        intro ws₁ hbranch
        have hnamed := hnamed ws₁ hbranch
        have hspec := ih ((Graph.wellFormed_congr hnamed.outline).mpr h) hnamed.own
          (nameable_cons hnames)
        rwa [List.length_append, List.length_singleton] at hspec
      rw [clear_cons]
      constructor
      · constructor
        · rintro ⟨ws', hok⟩
          obtain ⟨ws₁, hbranch, hbranches⟩ := branches_cons_iff.mp hok
          exact ⟨hfirst.mp ⟨ws₁, hbranch⟩, (hrest ws₁ hbranch).1.mp ⟨ws', hbranches⟩⟩
        · rintro ⟨hclear, hclears⟩
          obtain ⟨ws₁, hbranch⟩ := hfirst.mpr hclear
          obtain ⟨ws', hbranches⟩ := (hrest ws₁ hbranch).1.mpr hclears
          exact ⟨ws', branches_cons_iff.mpr ⟨ws₁, hbranch, hbranches⟩⟩
      · intro ws' hok
        obtain ⟨ws₁, hbranch, hbranches⟩ := branches_cons_iff.mp hok
        have hnamed := (hnamed ws₁ hbranch).trans ((hrest ws₁ hbranch).2 ws' hbranches)
        rwa [List.append_assoc done] at hnamed

end Loading
end BlockGraph
