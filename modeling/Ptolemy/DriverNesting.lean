/-
# Nested lists of maps

The maps of a definition may be given as a list of lists of maps.  `remap` takes one
level of lists apart itself; deeper ones are left to `_remap`, which does not hand on
the parent data there, and whose `result` is lost to `remap` where a `KeyError` ends the
list.

Both ways of running the maps are compared step by step (`Instr`), with the list as it
is given and with the flattened one.  They end alike exactly under a condition on the
steps that are met (`same_flattened_iff`).
-/
import Ptolemy.DriverColumns

namespace DriverMaps

variable (env : Env)

/-! ## Flattening -/

mutual

/-- The dictionaries of maps in an item of a list, in order. -/
def Maps.leaves : Maps → List Maps
  | .list l => Maps.leavesList l
  | .dict entries => [.dict entries]
  | .other => [.other]

def Maps.leavesList : List Maps → List Maps
  | [] => []
  | i :: l => i.leaves ++ Maps.leavesList l

end

/-- The definition with the flattened list of the same maps. -/
def Item.flattened (item : Item) : Item := { item with maps := Maps.leavesList item.maps }

/-- Equal data: the same columns with the same entries, or the same list. -/
def Data.Same : Data → Data → Prop
  | .dataset d, .dataset d' => ∀ name, Option.Rel Dict.Same (d.lookup name) (d'.lookup name)
  | .array l, .array l' => l = l'
  | _, _ => False

/-- The same value, or the same exception. -/
def SameEnd : Except Exn Data → Except Exn Data → Prop
  | .ok d, .ok d' => d.Same d'
  | .error e, .error e' => e = e'
  | _, _ => False

theorem Data.Same.refl (d : Data) : d.Same d := by
  cases d with
  | dataset d =>
    intro name
    cases d.lookup name with
    | none => exact .none
    | some c => exact .some (Dict.Same.refl c)
  | array l => rfl

/-! ## Steps -/

/-- A step: one map, deeper than `remap` looks or not; the end of a dictionary of maps there; and
the end of an item of the list that `remap` goes through. -/
inductive Instr : Type where
  | map (nested : Bool) (m : MapDef) : Instr
  | endDict : Instr
  | endItem : Instr

def leafInstrs : Maps → List Instr
  | .dict entries => entries.map (.map true) ++ [.endDict]
  | _ => [.endDict]

/-- The steps of an item of the list that `remap` goes through. -/
def Maps.instrs : Maps → List Instr
  | .dict entries => entries.map (.map false) ++ [.endItem]
  | .list l => (Maps.leavesList l).flatMap leafInstrs ++ [.endItem]
  | .other => [.endItem]

/-- The maps among the steps. -/
def mapsOf (is : List Instr) : List MapDef :=
  is.filterMap (fun
    | .map _ m => some m
    | _ => none)

/-- What a call that has not raised leaves as the data. -/
def Call.now (c : Call) : Data :=
  match c.result with
  | .ok new => new.getD c.given
  | .error _ => c.given

/-- The steps, with the list as given or flattened: what `result` refers to in the end, and what
they raise. Flattened, each dictionary of maps is an item of its own and has the parent data. -/
def runInstrs (flat : Bool) (parent : Results) (field : String) :
    List Instr → Call → Data × Option Exn
  | [], c => (c.now, none)
  | .map nested m :: is, c =>
      let c' := c.andThen (processByMap env (if nested && !flat then ∅ else parent) field m)
      match c'.result with
      | .error e => (c'.given, some e)
      | .ok _ => runInstrs flat parent field is c'
  | .endDict :: is, c => runInstrs flat parent field is (if flat then .same c.now else c)
  | .endItem :: is, c => runInstrs flat parent field is (.same c.now)

variable {env}

theorem Call.andThen_assoc (c : Call) (f g : Data → Call) :
    (c.andThen f).andThen g = c.andThen (fun d => (f d).andThen g) := by
  obtain ⟨given, result⟩ := c
  cases result with
  | error e => rfl
  | ok new =>
    cases new with
    | none => rfl
    | some d =>
      simp only [andThen]
      cases (f d).result with
      | error e => rfl
      | ok new =>
        cases new with
        | none => rfl
        | some d' =>
          dsimp only [Option.getD_some]
          cases (g d').result <;> rfl

variable (env)

/-- The maps of a list one after the other, from a call on. -/
def callAll (parent : Results) (field : String) (ms : List MapDef) (c : Call) : Call :=
  ms.foldl (fun c m => c.andThen (processByMap env parent field m)) c

variable {env} {parent : Results} {field : String}

theorem callAll_append (ms ms' : List MapDef) (c : Call) :
    callAll env parent field (ms ++ ms') c
      = callAll env parent field ms' (callAll env parent field ms c) :=
  List.foldl_append

theorem callAll_eq (ms : List MapDef) (c : Call) :
    callAll env parent field ms c
      = c.andThen (fun d => callAll env parent field ms (.same d)) := by
  induction ms generalizing c with
  | nil =>
    obtain ⟨given, result⟩ := c
    rcases result with e | _ | d <;> rfl
  | cons m ms ih =>
    show callAll env parent field ms (c.andThen (processByMap env parent field m)) = _
    rw [ih, Call.andThen_assoc]
    congr 1
    funext d
    rw [← ih]
    rfl

mutual

/-- Without parent data, a nested list is the list of its maps. -/
theorem _remap_eq_callAll (i : Maps) (d : Data) :
    _remap env i ∅ field d = callAll env ∅ field i.flat (.same d) := by
  cases i with
  | list l =>
    unfold _remap
    exact _remapList_eq_callAll l d
  | dict entries =>
    unfold _remap
    rfl
  | other =>
    unfold _remap
    rfl

theorem _remapList_eq_callAll (l : List Maps) (d : Data) :
    _remapList env l field d = callAll env ∅ field (Maps.flatList l) (.same d) := by
  cases l with
  | nil =>
    unfold _remapList
    rfl
  | cons i l =>
    unfold _remapList
    rw [_remap_eq_callAll i d, Maps.flatList, callAll_append,
      callAll_eq (Maps.flatList l)]
    congr 1
    funext d'
    exact _remapList_eq_callAll l d'

end

/-- A call that has raised is not gone on with. -/
theorem callAll_error {ms : List MapDef} {c : Call} {e : Exn} (h : c.result = .error e) :
    callAll env parent field ms c = c := by
  rw [callAll_eq, Call.andThen, h]
  obtain ⟨given, result⟩ := c
  obtain rfl := h
  rfl

/-- The steps of a dictionary of maps. -/
theorem run_maps {flat nested : Bool} (ms : List MapDef) (is : List Instr) {c : Call}
    {new : Option Data} (hc : c.result = .ok new) :
    runInstrs env flat parent field (ms.map (.map nested) ++ is) c
      = match (callAll env (if nested && !flat then ∅ else parent) field ms c).result with
        | .error e =>
          ((callAll env (if nested && !flat then ∅ else parent) field ms c).given, some e)
        | .ok _ => runInstrs env flat parent field is
            (callAll env (if nested && !flat then ∅ else parent) field ms c) := by
  induction ms generalizing c new with
  | nil =>
    show runInstrs env flat parent field is c = _
    rw [callAll, List.foldl_nil, hc]
  | cons m ms ih =>
    have hcons : callAll env (if nested && !flat then ∅ else parent) field (m :: ms) c
        = callAll env (if nested && !flat then ∅ else parent) field ms
          (c.andThen (processByMap env (if nested && !flat then ∅ else parent) field m)) := rfl
    rw [List.map_cons, List.cons_append, runInstrs, hcons]
    cases hstep : (c.andThen
        (processByMap env (if nested && !flat then ∅ else parent) field m)).result with
    | error e =>
      rw [callAll_error hstep, hstep]
    | ok new' => exact ih hstep

mutual

/-- The steps of an item of a nested list, as it is given: one call without parent data. -/
theorem run_leaves (i : Maps) (is : List Instr) {c : Call} {new : Option Data}
    (hc : c.result = .ok new) :
    runInstrs env false parent field (i.leaves.flatMap leafInstrs ++ is) c
      = match (callAll env ∅ field i.flat c).result with
        | .error e => ((callAll env ∅ field i.flat c).given, some e)
        | .ok _ => runInstrs env false parent field is (callAll env ∅ field i.flat c) := by
  cases i with
  | list l => exact run_leavesList l is hc
  | dict entries =>
    have hinstrs : (Maps.dict entries).leaves.flatMap leafInstrs ++ is
        = entries.map (.map true) ++ (.endDict :: is) := by
      simp [Maps.leaves, leafInstrs]
    rw [hinstrs, run_maps entries _ hc]
    rfl
  | other =>
    show runInstrs env false parent field is c = _
    rw [Maps.flat, callAll, List.foldl_nil, hc]

theorem run_leavesList (l : List Maps) (is : List Instr) {c : Call} {new : Option Data}
    (hc : c.result = .ok new) :
    runInstrs env false parent field ((Maps.leavesList l).flatMap leafInstrs ++ is) c
      = match (callAll env ∅ field (Maps.flatList l) c).result with
        | .error e => ((callAll env ∅ field (Maps.flatList l) c).given, some e)
        | .ok _ => runInstrs env false parent field is
            (callAll env ∅ field (Maps.flatList l) c) := by
  cases l with
  | nil =>
    show runInstrs env false parent field is c = _
    rw [Maps.flatList, callAll, List.foldl_nil, hc]
  | cons i l =>
    rw [Maps.leavesList, List.flatMap_append, List.append_assoc, run_leaves i _ hc, Maps.flatList,
      callAll_append]
    cases hi : (callAll env ∅ field i.flat c).result with
    | error e => rw [callAll_error hi, hi]
    | ok new' => exact run_leavesList l is hi

end

/-- **The steps of the list as it is given are what `remap` does.** -/
theorem run_given (is : List Maps) (d : Data) :
    runInstrs env false parent field (is.flatMap Maps.instrs) (.same d)
      = remapLoop env parent field is d := by
  induction is generalizing d with
  | nil => rfl
  | cons i is ih =>
    -- what the item's call leaves is where the rest goes on
    have hitem : ∀ c : Call, _remap env i parent field d = c →
        (match c.result with
          | .error e => (c.given, some e)
          | .ok _ => runInstrs env false parent field (.endItem :: is.flatMap Maps.instrs) c)
          = remapLoop env parent field (i :: is) d := by
      intro c hc
      rw [remapLoop, hc]
      cases hres : c.result with
      | error e => rfl
      | ok new =>
        show runInstrs env false parent field (is.flatMap Maps.instrs) (.same c.now)
          = remapLoop env parent field is (new.getD c.given)
        rw [ih, Call.now, hres]
    rw [List.flatMap_cons]
    cases i with
    | list l =>
      rw [Maps.instrs, List.append_assoc, run_leavesList l _ rfl]
      refine hitem _ ?_
      unfold _remap
      exact _remapList_eq_callAll l d
    | dict entries =>
      rw [Maps.instrs, List.append_assoc, run_maps entries _ rfl]
      refine hitem _ ?_
      unfold _remap
      rfl
    | other =>
      refine hitem (.same d) ?_
      unfold _remap
      rfl

mutual

theorem ne_list_of_mem_leaves (i : Maps) {j : Maps} (hj : j ∈ i.leaves) (l : List Maps) :
    j ≠ .list l := by
  cases i with
  | list l' => exact ne_list_of_mem_leavesList l' hj l
  | dict entries =>
    rw [List.mem_singleton.mp hj]
    exact fun h => by cases h
  | other =>
    rw [List.mem_singleton.mp hj]
    exact fun h => by cases h

theorem ne_list_of_mem_leavesList (is : List Maps) {j : Maps} (hj : j ∈ Maps.leavesList is)
    (l : List Maps) : j ≠ .list l := by
  cases is with
  | nil => exact absurd hj List.not_mem_nil
  | cons i is =>
    rcases List.mem_append.mp hj with hj | hj
    · exact ne_list_of_mem_leaves i hj l
    · exact ne_list_of_mem_leavesList is hj l

end

/-- Flattened, a dictionary of maps is an item of its own. -/
theorem run_leaf {i : Maps} (hi : ∀ l, i ≠ .list l) (is : List Instr) (d : Data) :
    runInstrs env true parent field (leafInstrs i ++ is) (.same d)
      = match (_remap env i parent field d).result with
        | .error e => ((_remap env i parent field d).given, some e)
        | .ok new => runInstrs env true parent field is
            (.same (new.getD (_remap env i parent field d).given)) := by
  cases i with
  | list l => exact absurd rfl (hi l)
  | dict entries =>
    have hcall : _remap env (.dict entries) parent field d
        = callAll env parent field entries (.same d) := by
      unfold _remap
      rfl
    rw [leafInstrs, List.append_assoc, run_maps entries _ rfl, hcall]
    show (match (callAll env parent field entries (.same d)).result with
      | .error e => ((callAll env parent field entries (.same d)).given, some e)
      | .ok _ => runInstrs env true parent field is
          (.same (callAll env parent field entries (.same d)).now)) = _
    rw [Call.now]
    cases (callAll env parent field entries (.same d)).result <;> rfl
  | other =>
    unfold _remap
    rfl

theorem run_flatMap_leaf {ls : List Maps} (hls : ∀ i ∈ ls, ∀ l, i ≠ .list l) {is : List Instr}
    {rest : List Maps} (hrest : ∀ d, runInstrs env true parent field is (.same d)
      = remapLoop env parent field rest d) (d : Data) :
    runInstrs env true parent field (ls.flatMap leafInstrs ++ is) (.same d)
      = remapLoop env parent field (ls ++ rest) d := by
  induction ls generalizing d with
  | nil => exact hrest d
  | cons i ls ih =>
    have ih' := ih (fun j hj => hls j (List.mem_cons_of_mem i hj))
    rw [List.flatMap_cons, List.append_assoc, run_leaf (hls i List.mem_cons_self),
      List.cons_append, remapLoop]
    cases (_remap env i parent field d).result with
    | error e => rfl
    | ok new => exact ih' _

/-- **Flattened, the steps are what `remap` does with the flattened list.** -/
theorem run_flattened (is : List Maps) (d : Data) :
    runInstrs env true parent field (is.flatMap Maps.instrs) (.same d)
      = remapLoop env parent field (Maps.leavesList is) d := by
  induction is generalizing d with
  | nil => rfl
  | cons i is ih =>
    have hend : ∀ d, runInstrs env true parent field (.endItem :: is.flatMap Maps.instrs) (.same d)
        = remapLoop env parent field (Maps.leavesList is) d := ih
    rw [List.flatMap_cons, Maps.leavesList]
    cases i with
    | list l =>
      rw [Maps.instrs, List.append_assoc]
      exact run_flatMap_leaf (fun j hj => ne_list_of_mem_leavesList l hj) hend d
    | dict entries =>
      have hsame : runInstrs env true parent field
          ((Maps.dict entries).instrs ++ is.flatMap Maps.instrs) (.same d)
          = runInstrs env true parent field
            ([Maps.dict entries].flatMap leafInstrs ++ .endItem :: is.flatMap Maps.instrs)
            (.same d) := by
        rw [Maps.instrs, List.append_assoc, run_maps entries _ rfl, List.flatMap_singleton,
          leafInstrs, List.append_assoc, run_maps entries _ rfl]
        rfl
      rw [hsame]
      refine run_flatMap_leaf (fun j hj => ?_) hend d
      rw [List.mem_singleton.mp hj]
      exact fun l h => by cases h
    | other =>
      have hloop : remapLoop env parent field (Maps.other.leaves ++ Maps.leavesList is) d
          = remapLoop env parent field (Maps.leavesList is) d := by
        show remapLoop env parent field (.other :: Maps.leavesList is) d = _
        rw [remapLoop]
        unfold _remap
        rfl
      rw [hloop]
      exact ih d

/-! ## What raises the exception of a missing parent column -/

/-- The exceptions of a `parent_ref` that is not in the parent data begin alike. -/
def ParentMiss (e : Exn) : Prop :=
  ∃ text, e = .refNotFound ("request value remapping using parent " ++ text)

theorem parentMiss_notInParent (ref : String) : ParentMiss (notInParent ref) :=
  ⟨_, by rw [notInParent, String.append_assoc, String.append_assoc, String.append_assoc]⟩

theorem not_parentMiss_of_ne {e : Exn} (h : ∀ text, e ≠ .refNotFound text) : ¬ ParentMiss e :=
  fun ⟨_, he⟩ => h _ he

theorem not_parentMiss_notInData (r : String) : ¬ ParentMiss (notInData r) := by
  rintro ⟨text, h⟩
  have hlist := congrArg String.toList (Exn.refNotFound.inj h)
  simp [String.toList_append] at hlist

theorem not_parentMiss_keyRemap (ref : String) : ¬ ParentMiss
    (.refNotFound ("request remapping using ref " ++ ref ++ " (not in data)")) := by
  rintro ⟨text, h⟩
  have hlist := congrArg String.toList (Exn.refNotFound.inj h)
  simp [String.toList_append] at hlist

theorem onColumn_error {data : Dataset} {name : String} {f : Column → Except Exn Column} {e : Exn}
    (h : onColumn data name f = .error e) : e = .keyError name ∨ ∃ c, f c = .error e := by
  unfold onColumn at h
  split at h
  · cases h
    exact Or.inl rfl
  · next c _ =>
    right
    refine ⟨c, ?_⟩
    cases hf : f c with
    | error e' =>
      rw [hf] at h
      cases h
      rfl
    | ok c' =>
      rw [hf] at h
      cases h

/-- Working on a column raises a `KeyError`, or what one of its turns raises. -/
theorem not_parentMiss_onColumn {data : Dataset} {name : String}
    {step : Column → Value → Value → Except Exn Column} {e : Exn}
    (hstep : ∀ c k v e, step c k v = .error e → ¬ ParentMiss e)
    (h : onColumn data name (forItems env step) = .error e) : ¬ ParentMiss e := by
  rcases onColumn_error h with rfl | ⟨c, hc⟩
  · exact not_parentMiss_of_ne (fun _ h => by cases h)
  · obtain ⟨c', p, -, hp⟩ := exists_of_foldlM_error hc
    exact hstep c' p.1 p.2 e hp

theorem result_inPlace_error {data : Dataset} {r : Except Exn Dataset} {e : Exn}
    (h : (Call.inPlace data r).result = .error e) : r = .error e := by
  cases r with
  | ok d => cases h
  | error e' =>
    cases h
    rfl

theorem not_parentMiss_keyError (key : String) : ¬ ParentMiss (.keyError key) :=
  not_parentMiss_of_ne (fun _ h => by cases h)

theorem not_parentMiss_typeError (msg : String) : ¬ ParentMiss (.typeError msg) :=
  not_parentMiss_of_ne (fun _ h => by cases h)

theorem not_parentMiss_exception (msg : String) : ¬ ParentMiss (.exception msg) :=
  not_parentMiss_of_ne (fun _ h => by cases h)

theorem not_parentMiss_valueRemap {parent : Results} {data : Dataset} {name : String}
    {defn : ValueSub} (hdefn : ∀ ref, defn = .parent_ref ref → parentColumn parent ref ≠ none)
    {e : Exn} (h : _process_by_value_remap env parent data name defn = .error e) :
    ¬ ParentMiss e := by
  cases defn with
  | dict mapping =>
    refine not_parentMiss_onColumn (fun c k v e he => ?_) h
    have hsub : substitute env mapping v = .error e := by
      cases hv : substitute env mapping v with
      | ok w => rw [hv] at he; cases he
      | error e' => rw [hv] at he; cases he; rfl
    rw [substitute] at hsub
    split at hsub
    · cases hsub
    · cases hfound : firstFound env v.toText (env.order.order mapping.items) with
      | ok found => rw [hfound] at hsub; cases hsub
      | error e' =>
        rw [hfound] at hsub
        cases hsub
        obtain ⟨msg, rfl⟩ := firstFound_error hfound
        exact not_parentMiss_exception msg
  | ref r =>
    rw [_process_by_value_remap] at h
    split at h
    · cases h
      exact not_parentMiss_notInData r
    · refine not_parentMiss_onColumn (fun c k v e he => ?_) h
      split at he <;> cases he
  | parent_ref ref =>
    rw [_process_by_value_remap] at h
    split at h
    · next hnone => exact absurd hnone (hdefn ref rfl)
    · refine not_parentMiss_onColumn (fun c k v e he => ?_) h
      split at he <;> cases he
  | set s => exact not_parentMiss_onColumn (fun c k v e he => by cases he) h
  | prefixed s => exact not_parentMiss_onColumn (fun c k v e he => by cases he) h
  | unknown text =>
    cases h
    exact not_parentMiss_exception _

theorem not_parentMiss_keySub {data : Dataset} {name : String} {ref : Option String} {e : Exn}
    (h : _process_by_key_remap env data name ref = .error e) : ¬ ParentMiss e := by
  unfold _process_by_key_remap at h
  split at h
  · cases h
    exact not_parentMiss_keyError _
  · next ref =>
    split at h
    · cases h
      exact not_parentMiss_keyRemap ref
    · rcases onColumn_error h with rfl | ⟨c, hc⟩
      · exact not_parentMiss_keyError _
      · obtain ⟨this, p, -, hp⟩ := exists_of_foldlM_error hc
        split at hp
        · next k _ =>
          cases k with
          | list l =>
            cases hp
            exact not_parentMiss_typeError _
          | _ => cases hp
        · cases hp

theorem not_parentMiss_contains {v : Value} {s : String} {e : Exn} (h : contains v s = .error e) :
    ¬ ParentMiss e := by
  cases v <;> cases h <;> exact not_parentMiss_typeError _

theorem not_parentMiss_function {data : Dataset} {name y func : String} {e : Exn}
    (h : (_process_by_function env data name y func).result = .error e) : ¬ ParentMiss e := by
  unfold _process_by_function at h
  split_ifs at h
  · exact not_parentMiss_onColumn (fun c k v e he => by cases he) (result_inPlace_error h)
  · exact not_parentMiss_onColumn (fun c k v e he => by cases he) (result_inPlace_error h)
  · cases h
  · have h' := result_inPlace_error h
    unfold functionDeleteKey at h'
    split at h'
    · cases h'
    · obtain ⟨d, p, -, hp⟩ := exists_of_foldlM_error h'
      cases hc : contains p.2 (Text.partition ':' func).2.2 with
      | error e' =>
        rw [hc] at hp
        cases hp
        exact not_parentMiss_contains hc
      | ok b =>
        rw [hc] at hp
        cases b <;> cases hp
        exact not_parentMiss_typeError _
  · have h' := result_inPlace_error h
    unfold functionDeleteEntryUnless at h'
    dsimp only at h'
    split at h'
    · cases h'
    · refine not_parentMiss_onColumn (fun c k v e he => ?_) h'
      cases hc : contains v (Text.partition ':'
          (String.ofList (partitionDouble '=' func.toList).1)).2.2 with
      | error e' =>
        rw [hc] at he
        cases he
        exact not_parentMiss_contains hc
      | ok b =>
        rw [hc] at he
        cases b <;> cases he
        exact not_parentMiss_typeError _
  · split at h <;> cases h
  · split at h <;> cases h
  · cases h

/-- Only a `parent_ref` that is not in the parent data raises its exception. -/
theorem not_parentMiss_processDataset {parent : Results} {name : String} {data : Dataset}
    {m : MapDef} (hm : ∀ ref, m = .value_sub (.parent_ref ref) → parentColumn parent ref ≠ none)
    {e : Exn} (h : (processDataset env parent name data m).result = .error e) :
    ¬ ParentMiss e := by
  cases m with
  | key_sub ref => exact not_parentMiss_keySub (result_inPlace_error h)
  | value_sub defn =>
    exact not_parentMiss_valueRemap (fun ref hdefn => hm ref (by rw [hdefn]))
      (result_inPlace_error h)
  | regexp y pattern =>
    have h' := result_inPlace_error h
    unfold _process_by_regexp at h'
    split_ifs at h'
    · exact not_parentMiss_onColumn (fun c k v e he => by cases he) h'
    · exact not_parentMiss_onColumn (fun c k v e he => by cases he) h'
    · cases h'
      exact not_parentMiss_exception _
  | extract_from_key regexp =>
    have h' := result_inPlace_error h
    unfold _process_by_extract_from_key at h'
    split at h'
    · cases h'
    · split at h'
      · cases h'
        exact not_parentMiss_keyError _
      · obtain ⟨d, p, -, hp⟩ := exists_of_foldlM_error h'
        split at hp
        · cases hp
          exact not_parentMiss_typeError _
        · cases hp
        · cases hp
  | function y func => exact not_parentMiss_function h
  | value_math func value =>
    have h' := result_inPlace_error h
    unfold _process_by_value_math at h'
    split at h'
    · cases h'
    · exact not_parentMiss_onColumn (fun c k v e he => by cases he) h'
  | to_array =>
    rw [processDataset, _process_by_to_array] at h
    split at h
    · cases h
      exact not_parentMiss_keyError _
    · cases h
  | filter y mapping =>
    exact not_parentMiss_onColumn (fun c k v e he => by cases he) (result_inPlace_error h)
  | set_value_as_key =>
    have h' := result_inPlace_error h
    unfold _process_by_set_value_as_key at h'
    split_ifs at h'
    exact not_parentMiss_onColumn (fun c k v e he => by cases he) h'
  | swap_keys_and_values =>
    cases h
    exact not_parentMiss_typeError _
  | merge_defs defn => cases h
  | unknown name =>
    cases h
    exact not_parentMiss_exception _

theorem not_parentMiss_processArray {parent : Results} {name : String} {l : List Value}
    {m : MapDef} (hm : ∀ ref, m = .value_sub (.parent_ref ref) → parentColumn parent ref ≠ none)
    {e : Exn} (h : (processArray parent name l m).result = .error e) : ¬ ParentMiss e := by
  have hlist : ¬ ParentMiss listIndex := not_parentMiss_typeError _
  have hif : ∀ {P : Prop} [Decidable P], ((if P then ⟨.array l, .error listIndex⟩
      else Call.same (.array l)) : Call).result = .error e → ¬ ParentMiss e := by
    intro P _ hP
    split_ifs at hP
    · cases hP
      exact hlist
    · cases hP
  cases m with
  | key_sub ref =>
    cases ref with
    | none =>
      cases h
      exact not_parentMiss_keyError _
    | some ref =>
      cases h
      split_ifs
      · exact hlist
      · exact not_parentMiss_keyRemap ref
  | value_sub defn =>
    cases defn with
    | ref r =>
      cases h
      split_ifs
      · exact hlist
      · exact not_parentMiss_notInData r
    | parent_ref ref =>
      cases h
      rw [if_pos (Option.isSome_iff_ne_none.mpr (hm ref rfl))]
      exact hlist
    | unknown text =>
      cases h
      exact not_parentMiss_exception _
    | _ =>
      cases h
      exact hlist
  | regexp y pattern =>
    cases h
    split_ifs
    · exact hlist
    · exact not_parentMiss_exception _
  | extract_from_key regexp =>
    cases regexp with
    | none => cases h
    | some pattern =>
      cases h
      exact hlist
  | function y func =>
    rw [processArray] at h
    split_ifs at h
    · cases h
      exact hlist
    · cases h
      exact hlist
    · cases h
    · cases h
      exact hlist
    · cases h
    · cases h
  | value_math func value =>
    cases func with
    | none => cases h
    | some func =>
      cases h
      exact hlist
  | to_array =>
    cases h
    exact hlist
  | filter y mapping =>
    cases h
    exact hlist
  | set_value_as_key => exact hif h
  | swap_keys_and_values =>
    cases h
    exact not_parentMiss_typeError _
  | merge_defs defn => exact hif h
  | unknown name =>
    cases h
    exact not_parentMiss_exception _

variable (env) in
/-- **Which map raises the exception of a missing parent column**: a `parent_ref` of that field
which is not in the parent data. -/
theorem processByMap_notInParent_iff {parent : Results} {name : String} {d : Data} {m : MapDef}
    {ref : String} : (processByMap env parent name m d).result = .error (notInParent ref)
      ↔ ∃ ref', m = .value_sub (.parent_ref ref') ∧ parentColumn parent ref' = none
        ∧ notInParent ref' = notInParent ref := by
  have hraise : ∀ ref', parentColumn parent ref' = none →
      (processByMap env parent name (.value_sub (.parent_ref ref')) d).result
        = .error (notInParent ref') := by
    intro ref' hnone
    cases d with
    | dataset data =>
      have hremap : _process_by_value_remap env parent data name (.parent_ref ref')
          = .error (notInParent ref') := by
        rw [_process_by_value_remap, hnone]
      rw [processByMap, processDataset, hremap]
      rfl
    | array l =>
      show (Except.error (if (parentColumn parent ref').isSome then listIndex
        else notInParent ref') : Except Exn (Option Data)) = _
      rw [hnone]
      rfl
  constructor
  · intro h
    by_contra hnot
    have hm : ∀ ref', m = .value_sub (.parent_ref ref') → parentColumn parent ref' ≠ none := by
      rintro ref' rfl hnone
      refine hnot ⟨ref', rfl, hnone, ?_⟩
      exact Except.error.inj ((hraise ref' hnone).symm.trans h)
    cases d with
    | dataset data => exact not_parentMiss_processDataset hm h (parentMiss_notInParent ref)
    | array l => exact not_parentMiss_processArray hm h (parentMiss_notInParent ref)
  · rintro ⟨ref', rfl, hnone, heq⟩
    rw [hraise ref' hnone, heq]

/-- The parent data matter for the column of a `parent_ref` only. -/
theorem processByMap_parent {parent parent' : Results} {name : String} {m : MapDef}
    (h : ∀ ref, m = .value_sub (.parent_ref ref) →
      parentColumn parent ref = parentColumn parent' ref) :
    processByMap env parent name m = processByMap env parent' name m := by
  funext d
  cases m with
  | value_sub defn =>
    cases defn with
    | parent_ref ref =>
      cases d with
      | dataset data =>
        simp only [processByMap, processDataset, _process_by_value_remap, h ref rfl]
      | array l => simp only [processByMap, processArray, h ref rfl]
    | _ => cases d <;> rfl
  | key_sub ref => cases d <;> cases ref <;> rfl
  | extract_from_key regexp => cases d <;> cases regexp <;> rfl
  | value_math func value => cases d <;> cases func <;> rfl
  | _ => cases d <;> rfl

/-! ## Where both ways part -/

/-- The parent column that a map in a nested list does not get. -/
def lost (parent : Results) (nested : Bool) : MapDef → Option String
  | .value_sub (.parent_ref ref) =>
      if nested ∧ (parentColumn parent ref).isSome then some ref else none
  | _ => none

variable (env) in
/-- The maps come, without raising before, to a `parent_ref` that is not in the parent data and
raises `e`. -/
def Misses (parent : Results) (field : String) (e : Exn) : List MapDef → Data → Prop
  | [], _ => False
  | m :: ms, d =>
      (∃ ref, m = .value_sub (.parent_ref ref) ∧ parentColumn parent ref = none
        ∧ notInParent ref = e)
      ∨ ∃ new, (processByMap env parent field m d).result = .ok new
        ∧ Misses parent field e ms (processByMap env parent field m d).now

variable (env) in
/-- The condition on the steps: no map misses its parent column, or the flattened list comes to one
that raises the same; and where a map raises a `KeyError`, what `remap` still refers to holds the
same as what it would refer to with the flattened list.  These are the same object unless a map of
an earlier dictionary of the nested list has put another one in its place. -/
def Agree (parent : Results) (field : String) : List Instr → Call → Call → Prop
  | [], _, _ => True
  | .map nested m :: is, c, c' =>
      match lost parent nested m with
      | some ref => Misses env parent field (notInParent ref) (m :: mapsOf is) c'.now
      | none => match (processByMap env parent field m c.now).result with
        | .ok _ => Agree parent field is (c.andThen (processByMap env parent field m))
            (c'.andThen (processByMap env parent field m))
        | .error (.keyError _) => (c.andThen (processByMap env parent field m)).given.Same
            (c'.andThen (processByMap env parent field m)).given
        | .error _ => True
  | .endDict :: is, c, c' => Agree parent field is c (.same c'.now)
  | .endItem :: is, c, c' => Agree parent field is (.same c.now) (.same c'.now)

/-- How `remap` ends after its maps. -/
def finish : Data × Option Exn → Except Exn Data
  | (result, none) => .ok result
  | (result, some (.keyError _)) => .ok result
  | (_, some e) => .error e

variable (env) in
theorem remap_eq_finish (parent : Results) (result : Data) (field : String) (item : Item) :
    remap env parent result field item
      = (takeRef result field item).bind
        (fun d => finish (remapLoop env parent field item.opened d)) := by
  unfold remap
  cases takeRef result field item with
  | error e => rfl
  | ok d =>
    show (match remapLoop env parent field item.opened d with
      | (result, none) => Except.ok result
      | (result, some (.keyError _)) => .ok result
      | (_, some e) => .error e) = finish (remapLoop env parent field item.opened d)
    obtain ⟨d', _ | e⟩ := remapLoop env parent field item.opened d
    · rfl
    · cases e <;> rfl

section andThen

variable {c : Call} {f : Data → Call} {new : Option Data}

theorem Call.andThen_result_error (hc : c.result = .ok new) {e : Exn}
    (hf : (f c.now).result = .error e) : (c.andThen f).result = .error e := by
  obtain ⟨given, result⟩ := c
  obtain rfl := hc
  cases new with
  | none => exact hf
  | some d =>
    show (match (f d).result with
      | .error e => Except.error e
      | .ok new => .ok (some (new.getD (f d).given))) = _
    have hd : (f d).result = .error e := hf
    rw [hd]

theorem Call.andThen_result_ok (hc : c.result = .ok new) {new' : Option Data}
    (hf : (f c.now).result = .ok new') :
    (∃ new'', (c.andThen f).result = .ok new'') ∧ (c.andThen f).now = (f c.now).now := by
  obtain ⟨given, result⟩ := c
  obtain rfl := hc
  cases new with
  | none => exact ⟨⟨new', hf⟩, rfl⟩
  | some d =>
    have hd : (f d).result = .ok new' := hf
    have hthen : (Call.mk given (.ok (some d))).andThen f
        = ⟨given, .ok (some (new'.getD (f d).given))⟩ := by
      simp only [Call.andThen, hd]
    rw [hthen]
    refine ⟨⟨_, rfl⟩, ?_⟩
    show new'.getD (f d).given = (f d).now
    rw [Call.now, hd]

end andThen

theorem finish_error_iff {d : Data} {e e' : Exn} (he' : ¬ IsKeyError e') :
    finish (d, some e) = .error e' ↔ e = e' := by
  cases e with
  | keyError key =>
    constructor
    · intro h
      cases h
    · rintro rfl
      exact absurd trivial he'
  | _ => exact ⟨Except.error.inj, congrArg Except.error⟩

/-- When the flattened list raises the exception of a missing parent column. -/
theorem finish_notInParent_iff (ref : String) (is : List Instr) {c : Call} {new : Option Data}
    (hc : c.result = .ok new) :
    finish (runInstrs env true parent field is c) = .error (notInParent ref)
      ↔ Misses env parent field (notInParent ref) (mapsOf is) c.now := by
  induction is generalizing c new with
  | nil =>
    constructor
    · intro h
      cases h
    · exact False.elim
  | cons i is ih =>
    cases i with
    | map nested m =>
      have hparent : (if nested && !true then ∅ else parent) = parent := by
        rw [Bool.not_true, Bool.and_false]
        rfl
      have hmaps : mapsOf (.map nested m :: is) = m :: mapsOf is := rfl
      rw [hmaps, Misses, runInstrs, hparent]
      cases hf : (processByMap env parent field m c.now).result with
      | error e =>
        rw [Call.andThen_result_error hc hf]
        show finish (_, some e) = _ ↔ _
        rw [finish_error_iff id, ← processByMap_notInParent_iff env (d := c.now), hf]
        constructor
        · rintro rfl
          exact Or.inl rfl
        · rintro (h | ⟨new, h, -⟩)
          · exact Except.error.inj h
          · cases h
      | ok new' =>
        obtain ⟨⟨new'', hok⟩, hnow⟩ := Call.andThen_result_ok hc hf
        rw [hok]
        show finish (runInstrs env true parent field is _) = _ ↔ _
        rw [ih hok, hnow]
        constructor
        · exact fun h => Or.inr ⟨new', rfl, h⟩
        · rintro (h | ⟨new, -, h⟩)
          · rw [← processByMap_notInParent_iff env (d := c.now), hf] at h
            cases h
          · exact h
    | endDict => exact ih (c := .same c.now) rfl
    | endItem => exact ih (c := .same c.now) rfl

/-- A map that does not get its parent column raises. -/
theorem processByMap_lost {nested : Bool} {m : MapDef} {ref : String} (d : Data)
    (h : lost parent nested m = some ref) :
    (processByMap env (if nested && !false then ∅ else parent) field m d).result
      = .error (notInParent ref) := by
  unfold lost at h
  split at h
  · next ref' =>
    split_ifs at h with hif
    obtain rfl := Option.some.inj h
    rw [hif.1]
    exact (processByMap_notInParent_iff env).mpr ⟨ref', rfl, rfl, rfl⟩
  · cases h

/-- Any other one does the same with the parent data and without. -/
theorem processByMap_not_lost {nested : Bool} {m : MapDef} (h : lost parent nested m = none) :
    processByMap env (if nested && !false then ∅ else parent) field m
      = processByMap env parent field m := by
  refine processByMap_parent (fun ref hm => ?_)
  rw [hm, lost] at h
  cases nested with
  | false => rfl
  | true =>
    split_ifs at h with hif
    have hnone : parentColumn parent ref = none := by
      cases hcol : parentColumn parent ref with
      | none => rfl
      | some c => exact absurd ⟨rfl, by rw [hcol]; rfl⟩ hif
    rw [hnone]
    rfl

/-- **Both ways from one state of the data**: they end alike exactly where the steps agree. -/
theorem sameEnd_iff_agree (is : List Instr) {c c' : Call} {new new' : Option Data}
    (hc : c.result = .ok new) (hc' : c'.result = .ok new') (hnow : c.now = c'.now) :
    SameEnd (finish (runInstrs env false parent field is c))
        (finish (runInstrs env true parent field is c'))
      ↔ Agree env parent field is c c' := by
  induction is generalizing c c' new new' with
  | nil =>
    refine iff_of_true ?_ trivial
    show c.now.Same c'.now
    rw [hnow]
    exact Data.Same.refl _
  | cons i is ih =>
    cases i with
    | map nested m =>
      cases hlost : lost parent nested m with
      | some ref =>
        have hgiven : finish (runInstrs env false parent field (.map nested m :: is) c)
            = .error (notInParent ref) := by
          rw [runInstrs, Call.andThen_result_error hc (processByMap_lost c.now hlost)]
          rfl
        rw [Agree, hlost, hgiven]
        show _ ↔ Misses env parent field (notInParent ref) (mapsOf (.map nested m :: is)) c'.now
        rw [← finish_notInParent_iff ref _ hc']
        cases finish (runInstrs env true parent field (.map nested m :: is) c') with
        | ok d => exact ⟨False.elim, fun h => by cases h⟩
        | error e => exact ⟨fun h => congrArg _ h.symm, fun h => (Except.error.inj h).symm⟩
      | none =>
        have hparent : (if nested && !true then ∅ else parent) = parent := by
          rw [Bool.not_true, Bool.and_false]
          rfl
        rw [Agree, hlost, runInstrs, runInstrs, processByMap_not_lost hlost, hparent]
        cases hf : (processByMap env parent field m c.now).result with
        | error e =>
          rw [Call.andThen_result_error hc hf, Call.andThen_result_error hc' (hnow ▸ hf)]
          cases e with
          | keyError key => exact Iff.rfl
          | _ => exact iff_of_true rfl trivial
        | ok new'' =>
          obtain ⟨⟨r, hok⟩, hafter⟩ := Call.andThen_result_ok hc hf
          obtain ⟨⟨r', hok'⟩, hafter'⟩ := Call.andThen_result_ok hc' (hnow ▸ hf)
          rw [hok, hok']
          exact ih hok hok' (by rw [hafter, hafter', hnow])
    | endDict => exact ih hc (show (Call.same c'.now).result = .ok none from rfl) hnow
    | endItem =>
      exact ih (show (Call.same c.now).result = .ok none from rfl)
        (show (Call.same c'.now).result = .ok none from rfl) hnow

/-! ## Nested and flattened definitions -/

theorem leavesList_append (l l' : List Maps) :
    Maps.leavesList (l ++ l') = Maps.leavesList l ++ Maps.leavesList l' := by
  induction l with
  | nil => rfl
  | cons i l ih =>
    rw [List.cons_append, Maps.leavesList, Maps.leavesList, ih, List.append_assoc]

/-- Opening a list does not change the maps in it. -/
theorem leavesList_opened (item : Item) :
    Maps.leavesList item.opened = Maps.leavesList item.maps := by
  unfold Item.opened
  induction item.maps with
  | nil => rfl
  | cons i l ih =>
    rw [List.flatMap_cons, leavesList_append, ih, Maps.leavesList]
    cases i with
    | list l' => rw [Maps.leaves]
    | dict entries => rfl
    | other => rfl

/-- Maps without lists among them are opened to themselves. -/
theorem flatMap_opened {l : List Maps} (hl : ∀ i ∈ l, ∀ l', i ≠ .list l') :
    l.flatMap (fun i => match i with
      | .list l => l
      | i => [i]) = l := by
  induction l with
  | nil => rfl
  | cons i l ih =>
    rw [List.flatMap_cons, ih (fun j hj => hl j (List.mem_cons_of_mem i hj))]
    cases i with
    | list l' => exact absurd rfl (hl _ List.mem_cons_self l')
    | dict entries => rfl
    | other => rfl

/-- A list without lists is opened already. -/
theorem opened_flattened (item : Item) :
    item.flattened.opened = Maps.leavesList item.maps := by
  exact flatMap_opened (fun i hi => ne_list_of_mem_leavesList item.maps hi)

/-- **Nested lists of maps**: a definition ends as with the flattened list of the same maps exactly
where the steps agree on the data that its column is taken from. -/
theorem same_flattened_iff (env : Env) (parent : Results) (result : Data) (field : String)
    (item : Item) :
    SameEnd (remap env parent result field item) (remap env parent result field item.flattened)
      ↔ ∀ data, takeRef result field item = .ok data →
        Agree env parent field (item.opened.flatMap Maps.instrs) (.same data) (.same data) := by
  have htake : takeRef result field item.flattened = takeRef result field item := rfl
  rw [remap_eq_finish, remap_eq_finish, htake, opened_flattened, ← leavesList_opened]
  cases takeRef result field item with
  | error e => exact iff_of_true rfl (fun data h => by cases h)
  | ok d =>
    show SameEnd (finish (remapLoop env parent field item.opened d))
      (finish (remapLoop env parent field (Maps.leavesList item.opened) d)) ↔ _
    have hsame : (Call.same d).result = .ok none := rfl
    rw [← run_given, ← run_flattened, sameEnd_iff_agree _ hsame hsame rfl]
    constructor
    · intro h data hdata
      rwa [← Except.ok.inj hdata]
    · exact fun h => h d rfl

/-! The number of a port is replaced by its name. -/

/-- The names were polled before, for the switch. -/
def portNames : Results :=
  Dict.ofList [("port", Dict.ofList [(.str "name", Dict.ofList [(.str "1", .str "Gi0/1")])])]

/-- The map stands in a list within a list of the list of maps. -/
def peerItem : Item where
  maps := [.list [.list [.dict [.value_sub (.parent_ref "port::name")]]]]

def peerData : Dataset := Dict.ofList [("peer", Dict.ofList [(.str "a", .int 1)])]

theorem not_same_flattened_peer :
    ¬ SameEnd (remap bareEnv portNames (.dataset peerData) "peer" peerItem)
      (remap bareEnv portNames (.dataset peerData) "peer" peerItem.flattened) := by
  have hgiven : remap bareEnv portNames (.dataset peerData) "peer" peerItem
      = .error (notInParent "port::name") := by
    rfl
  have hflat : remap bareEnv portNames (.dataset peerData) "peer" peerItem.flattened
      = .ok (.dataset (Dict.ofList [("peer", Dict.ofList [(.str "a", .str "Gi0/1")])])) := by
    rfl
  rw [hgiven, hflat]
  exact id

end DriverMaps
