/-
# What the maps do to single columns

* `Writes`     : the columns besides its own that a map may change;
* `newValues`  : what a list of value-wise maps makes of one value;
* `remap_outcomes` : the rule for the maps of a definition, on two datasets or on one;
* `remap_frame` : a definition leaves every column that it does not touch;
* `remap_image` : value-wise maps make each value of the new column of the value of the old one at
  the same index, and of nothing else.
-/
import Ptolemy.DriverMaps

namespace DriverMaps

variable {env : Env}

/-! ## Loops over the items of a column -/

/-- A loop that raises does so in one of its turns. -/
theorem exists_of_foldlM_error {ε α β : Type} {f : β → α → Except ε β} {l : List α} {b : β} {e : ε}
    (h : l.foldlM f b = .error e) : ∃ b' a, a ∈ l ∧ f b' a = .error e := by
  induction l generalizing b with
  | nil => cases h
  | cons a l ih =>
    rw [List.foldlM_cons] at h
    cases ha : f b a with
    | error e' =>
      rw [ha] at h
      cases h
      exact ⟨b, a, List.mem_cons_self, ha⟩
    | ok b' =>
      rw [ha] at h
      obtain ⟨b'', a', hmem, ha'⟩ := ih h
      exact ⟨b'', a', List.mem_cons_of_mem a hmem, ha'⟩

/-- One turn of a loop that decides the value at its own index only: `g` says which. -/
def Pointwise (step : Column → Value → Value → Except Exn Column)
    (g : Value → Value → Except Exn (Option Value)) : Prop :=
  ∀ c k v c', c.lookup k = some v → step c k v = .ok c' →
    g k v = .ok (c'.lookup k) ∧ ∀ k', k' ≠ k → c'.lookup k' = c.lookup k'

theorem foldlM_pointwise {step : Column → Value → Value → Except Exn Column}
    {g : Value → Value → Except Exn (Option Value)} (hstep : Pointwise step g)
    {l : List (Value × Value)} (hnodup : (l.map Prod.fst).Nodup) {c c' : Column}
    (hl : ∀ p ∈ l, c.lookup p.1 = some p.2)
    (h : l.foldlM (fun c p => step c p.1 p.2) c = .ok c') :
    (∀ p ∈ l, g p.1 p.2 = .ok (c'.lookup p.1))
      ∧ ∀ k, k ∉ l.map Prod.fst → c'.lookup k = c.lookup k := by
  induction l generalizing c with
  | nil =>
    cases h
    exact ⟨fun p hp => absurd hp List.not_mem_nil, fun k _ => rfl⟩
  | cons p l ih =>
    rw [List.map_cons, List.nodup_cons] at hnodup
    rw [List.foldlM_cons] at h
    obtain ⟨t, ht, h⟩ := Except.bind_eq_ok.mp h
    obtain ⟨hp, hothers⟩ := hstep c p.1 p.2 t (hl p List.mem_cons_self) ht
    -- the indexes of the rest are others than that of the first item
    have hrest : ∀ q ∈ l, t.lookup q.1 = some q.2 := by
      intro q hq
      have hne : q.1 ≠ p.1 := fun heq => hnodup.1 (heq ▸ List.mem_map_of_mem hq)
      rw [hothers q.1 hne]
      exact hl q (List.mem_cons_of_mem p hq)
    obtain ⟨hmem, hkeep⟩ := ih hnodup.2 hrest h
    constructor
    · intro q hq
      rcases List.mem_cons.mp hq with rfl | hq
      · rw [hkeep q.1 hnodup.1]
        exact hp
      · exact hmem q hq
    · intro k hk
      rw [List.map_cons, List.mem_cons, not_or] at hk
      rw [hkeep k hk.2, hothers k hk.1]

/-- What a loop makes of a column: the value of `g` at each index, and nothing elsewhere. -/
def Image (g : Value → Value → Except Exn (Option Value)) (c c' : Column) : Prop :=
  ∀ k, match c.lookup k with
    | none => c'.lookup k = none
    | some v => g k v = .ok (c'.lookup k)

theorem forItems_image {step : Column → Value → Value → Except Exn Column}
    {g : Value → Value → Except Exn (Option Value)} (hstep : Pointwise step g) {c c' : Column}
    (h : forItems env step c = .ok c') : Image g c c' := by
  have hperm := env.order.perm c.items
  obtain ⟨hmem, hkeep⟩ := foldlM_pointwise hstep (c.nodup_order_keys env.order)
    (fun p hp => Dict.mem_items.mp (hperm.mem_iff.mp hp)) h
  intro k
  cases hk : c.lookup k with
  | none =>
    have hout : k ∉ (env.order.order c.items).map Prod.fst := by
      rw [Dict.mem_order_keys]
      exact AList.lookup_eq_none.mp hk
    exact (hkeep k hout).trans hk
  | some v => exact hmem (k, v) (hperm.mem_iff.mpr (Dict.mem_items.mpr hk))

/-! ## The outcome of a map -/

/-- Whether `remap` catches the exception. -/
def IsKeyError : Exn → Prop
  | .keyError _ => True
  | _ => False

/-- How a call that works in place on a dataset ends: it returns, with `Q`, or raises, with `R`. -/
inductive Outcome (Q : Dataset → Prop) (R : Exn → Dataset → Prop) : Call → Prop
  | ok {d : Dataset} (h : Q d) : Outcome Q R ⟨.dataset d, .ok none⟩
  | error {d : Dataset} {e : Exn} (h : R e d) : Outcome Q R ⟨.dataset d, .error e⟩

/-- How two calls end alike: both return, with `Q`, or both raise the same, with `R`. -/
inductive Outcomes (Q : Dataset → Dataset → Prop) (R : Exn → Dataset → Dataset → Prop) :
    Call → Call → Prop
  | ok {d d' : Dataset} (h : Q d d') :
      Outcomes Q R ⟨.dataset d, .ok none⟩ ⟨.dataset d', .ok none⟩
  | error {d d' : Dataset} {e : Exn} (h : R e d d') :
      Outcomes Q R ⟨.dataset d, .error e⟩ ⟨.dataset d', .error e⟩

theorem outcome_inPlace {Q : Dataset → Prop} {R : Exn → Dataset → Prop} {d : Dataset}
    {r : Except Exn Dataset} (hok : ∀ d', r = .ok d' → Q d') (herror : ∀ e, r = .error e → R e d) :
    Outcome Q R (.inPlace d r) := by
  cases r with
  | ok d' => exact .ok (hok d' rfl)
  | error e => exact .error (herror e rfl)

theorem Outcome.twice {Q : Dataset → Prop} {R : Exn → Dataset → Prop} {c : Call}
    (h : Outcome Q R c) :
    Outcomes (fun d d' => d' = d ∧ Q d) (fun e d d' => d' = d ∧ R e d) c c := by
  cases h with
  | ok h => exact .ok ⟨rfl, h⟩
  | error h => exact .error ⟨rfl, h⟩

theorem Outcomes.andThen {P Q : Dataset → Dataset → Prop} {R : Exn → Dataset → Dataset → Prop}
    {c c' : Call} {f f' : Data → Call} (h : Outcomes P R c c')
    (hf : ∀ d d', P d d' → Outcomes Q R (f (.dataset d)) (f' (.dataset d'))) :
    Outcomes Q R (c.andThen f) (c'.andThen f') := by
  cases h with
  | ok h => exact hf _ _ h
  | error h => exact .error h

/-! ## Lists of maps -/

mutual

/-- The maps of an item of a list, in the order in which they run. -/
def Maps.flat : Maps → List MapDef
  | .list l => Maps.flatList l
  | .dict entries => entries
  | .other => []

def Maps.flatList : List Maps → List MapDef
  | [] => []
  | i :: l => i.flat ++ Maps.flatList l

end

section runs

variable {field : String} {P : List MapDef → Dataset → Dataset → Prop}
  {R : Exn → Dataset → Dataset → Prop}

/-- One map on two datasets, after the maps in `done`: `P` follows it. -/
def StepsTo (env : Env) (field : String) (P : List MapDef → Dataset → Dataset → Prop)
    (R : Exn → Dataset → Dataset → Prop) (m : MapDef) : Prop :=
  ∀ parent done d d', P done d d' → Outcomes (P (done ++ [m])) R
    (processDataset env parent field d m) (processDataset env parent field d' m)

theorem foldl_outcomes {parent : Results} {ms : List MapDef}
    (h : ∀ m ∈ ms, StepsTo env field P R m) {done : List MapDef} {c c' : Call}
    (hc : Outcomes (P done) R c c') :
    Outcomes (P (done ++ ms)) R
      (ms.foldl (fun c m => c.andThen (processByMap env parent field m)) c)
      (ms.foldl (fun c m => c.andThen (processByMap env parent field m)) c') := by
  induction ms generalizing done c c' with
  | nil =>
    rw [List.append_nil]
    exact hc
  | cons m ms ih =>
    rw [List.foldl_cons, List.foldl_cons, List.append_cons]
    apply ih (fun m' hm' => h m' (List.mem_cons_of_mem m hm'))
    exact hc.andThen (fun d d' hd => h m List.mem_cons_self parent done d d' hd)

mutual

theorem _remap_outcomes (i : Maps) (h : ∀ m ∈ i.flat, StepsTo env field P R m) (parent : Results)
    {done : List MapDef} {d d' : Dataset} (hd : P done d d') :
    Outcomes (P (done ++ i.flat)) R (_remap env i parent field (.dataset d))
      (_remap env i parent field (.dataset d')) := by
  cases i with
  | list l =>
    unfold _remap
    exact _remapList_outcomes l h hd
  | dict entries =>
    unfold _remap
    exact foldl_outcomes h (.ok hd)
  | other =>
    unfold _remap
    rw [Maps.flat, List.append_nil]
    exact .ok hd

theorem _remapList_outcomes (l : List Maps) (h : ∀ m ∈ Maps.flatList l, StepsTo env field P R m)
    {done : List MapDef} {d d' : Dataset} (hd : P done d d') :
    Outcomes (P (done ++ Maps.flatList l)) R (_remapList env l field (.dataset d))
      (_remapList env l field (.dataset d')) := by
  cases l with
  | nil =>
    unfold _remapList
    rw [Maps.flatList, List.append_nil]
    exact .ok hd
  | cons i l =>
    unfold _remapList
    rw [Maps.flatList, ← List.append_assoc]
    refine (_remap_outcomes i (fun m hm => h m ?_) ∅ hd).andThen
      (fun d₁ d₁' hd₁ => _remapList_outcomes l (fun m hm => h m ?_) hd₁)
    · exact List.mem_append_left _ hm
    · exact List.mem_append_right _ hm

end

/-- **The rule for the maps of a definition**, on two datasets: what each map carries on, from
the maps that have run to those and itself, holds after all of them, unless both runs are ended
early by the same exception. -/
theorem remapLoop_outcomes (is : List Maps) (h : ∀ m ∈ Maps.flatList is, StepsTo env field P R m)
    (parent : Results) {done : List MapDef} {d d' : Dataset} (hd : P done d d') :
    ∃ d₁ d₁' e, remapLoop env parent field is (.dataset d) = (.dataset d₁, e)
      ∧ remapLoop env parent field is (.dataset d') = (.dataset d₁', e)
      ∧ match e with
        | none => P (done ++ Maps.flatList is) d₁ d₁'
        | some e => R e d₁ d₁' := by
  induction is generalizing done d d' with
  | nil =>
    refine ⟨d, d', none, rfl, rfl, ?_⟩
    rw [Maps.flatList, List.append_nil]
    exact hd
  | cons i is ih =>
    have hi := _remap_outcomes i (fun m hm => h m (List.mem_append_left _ hm)) parent hd
    unfold remapLoop
    generalize _remap env i parent field (.dataset d) = c at hi ⊢
    generalize _remap env i parent field (.dataset d') = c' at hi ⊢
    cases hi with
    | ok hP =>
      rw [Maps.flatList, ← List.append_assoc]
      exact ih (fun m hm => h m (List.mem_append_right _ hm)) hP
    | error hR => exact ⟨_, _, some _, rfl, rfl, hR⟩

theorem flatList_append (l l' : List Maps) :
    Maps.flatList (l ++ l') = Maps.flatList l ++ Maps.flatList l' := by
  induction l with
  | nil => rfl
  | cons i l ih => rw [List.cons_append, Maps.flatList, Maps.flatList, ih, List.append_assoc]

/-- The maps of a definition, in the order in which they run. -/
def Item.flat (item : Item) : List MapDef := Maps.flatList item.maps

theorem flatList_opened (item : Item) : Maps.flatList item.opened = item.flat := by
  unfold Item.opened Item.flat
  induction item.maps with
  | nil => rfl
  | cons i l ih =>
    rw [List.flatMap_cons, flatList_append, ih, Maps.flatList]
    cases i with
    | list l' => rw [Maps.flat]
    | dict entries => simp only [Maps.flatList, List.append_nil]
    | other => simp only [Maps.flatList, List.append_nil]

/-- The maps of a definition on two datasets that the renaming has left: both return, after all
maps or after the same `KeyError`, or both raise the same. -/
theorem remap_outcomes {item : Item} (h : ∀ m ∈ item.flat, StepsTo env field P R m)
    {parent : Results} {data data' : Data} {d d' : Dataset}
    (htake : takeRef data field item = .ok (.dataset d))
    (htake' : takeRef data' field item = .ok (.dataset d')) (hd : P [] d d') :
    ∃ d₁ d₁', (remap env parent data field item = .ok (.dataset d₁)
        ∧ remap env parent data' field item = .ok (.dataset d₁')
        ∧ (P item.flat d₁ d₁' ∨ ∃ e, IsKeyError e ∧ R e d₁ d₁'))
      ∨ ∃ e, remap env parent data field item = .error e
        ∧ remap env parent data' field item = .error e ∧ ¬ IsKeyError e ∧ R e d₁ d₁' := by
  rw [← flatList_opened] at h ⊢
  obtain ⟨d₁, d₁', e, hloop, hloop', hend⟩ := remapLoop_outcomes item.opened h parent hd
  refine ⟨d₁, d₁', ?_⟩
  unfold remap
  rw [htake, htake', Except.ok_bind, Except.ok_bind, hloop, hloop']
  cases e with
  | none => exact Or.inl ⟨rfl, rfl, Or.inl hend⟩
  | some e =>
    cases e with
    | keyError key => exact Or.inl ⟨rfl, rfl, Or.inr ⟨.keyError key, trivial, hend⟩⟩
    | _ => exact Or.inr ⟨_, rfl, rfl, id, hend⟩

end runs

section run

variable {field : String} {P : List MapDef → Dataset → Prop} {R : Exn → Dataset → Prop}

/-- The maps of a definition on one dataset. -/
theorem remap_outcome {item : Item} (h : ∀ m ∈ item.flat, ∀ parent done d, P done d →
      Outcome (P (done ++ [m])) R (processDataset env parent field d m))
    {parent : Results} {data : Data} {d : Dataset}
    (htake : takeRef data field item = .ok (.dataset d)) (hd : P [] d) :
    ∃ d₁, (remap env parent data field item = .ok (.dataset d₁)
        ∧ (P item.flat d₁ ∨ ∃ e, IsKeyError e ∧ R e d₁))
      ∨ ∃ e, remap env parent data field item = .error e ∧ ¬ IsKeyError e ∧ R e d₁ := by
  have hsteps : ∀ m ∈ item.flat, StepsTo env field (fun done d d' => d' = d ∧ P done d)
      (fun e d d' => d' = d ∧ R e d) m := by
    rintro m hm parent done d d' ⟨rfl, hP⟩
    exact (h m hm parent done d' hP).twice
  obtain ⟨d₁, d₁', hrun⟩ := remap_outcomes hsteps htake htake ⟨rfl, hd⟩
  rcases hrun with ⟨hok, -, ⟨-, hP⟩ | ⟨e, he, -, hR⟩⟩ | ⟨e, herror, -, he, -, hR⟩
  · exact ⟨d₁, Or.inl ⟨hok, Or.inl hP⟩⟩
  · exact ⟨d₁, Or.inl ⟨hok, Or.inr ⟨e, he, hR⟩⟩⟩
  · exact ⟨d₁, Or.inr ⟨e, herror, he, hR⟩⟩

end run

/-! ## Columns that a definition leaves alone -/

/-- The columns besides its own that a map may change. -/
def Writes (env : Env) : MapDef → String → Prop
  | .extract_from_key (some pattern), x =>
      ∃ k d, env.match? pattern k = .ok (some d) ∧ x ∈ d ∧ x ≠ "key"
  | .function y func, x =>
      (y = "delete" ∧ x = (Text.partition ':' func).1)
        ∨ (y = "delete_entry_unless"
          ∧ x = (Text.partition ':' (String.ofList (partitionDouble '=' func.toList).1)).1)
        ∨ y = "group" ∨ y = "dataset"
  | .to_array, _ => True
  | _, _ => False

section frame

variable {x name : String} {data d' : Dataset}

theorem onColumn_frame {f : Column → Except Exn Column} (hx : x ≠ name)
    (h : onColumn data name f = .ok d') : d'.lookup x = data.lookup x := by
  unfold onColumn at h
  cases hc : data.lookup name with
  | none =>
    rw [hc] at h
    cases h
  | some c =>
    rw [hc] at h
    cases hf : f c with
    | error e =>
      simp only [hf] at h
      cases h
    | ok c' =>
      simp only [hf] at h
      cases h
      exact AList.lookup_insert_ne hx

theorem keyRemap_frame {ref : Option String} (hx : x ≠ name)
    (h : _process_by_key_remap env data name ref = .ok d') : d'.lookup x = data.lookup x := by
  unfold _process_by_key_remap at h
  split at h
  · cases h
  · split at h
    · cases h
    · exact onColumn_frame hx h

theorem valueRemap_frame {parent : Results} {defn : ValueSub} (hx : x ≠ name)
    (h : _process_by_value_remap env parent data name defn = .ok d') :
    d'.lookup x = data.lookup x := by
  unfold _process_by_value_remap at h
  split at h
  · exact onColumn_frame hx h
  · split at h
    · cases h
    · exact onColumn_frame hx h
  · split at h
    · cases h
    · exact onColumn_frame hx h
  · exact onColumn_frame hx h
  · exact onColumn_frame hx h
  · cases h

theorem regexp_frame {y pattern : String} (hx : x ≠ name)
    (h : _process_by_regexp env data name y pattern = .ok d') : d'.lookup x = data.lookup x := by
  unfold _process_by_regexp at h
  split_ifs at h
  · exact onColumn_frame hx h
  · exact onColumn_frame hx h

theorem extractMatch_frame {k : Value} {d : Dict String Value} (hx : x ∈ d → x = "key") :
    (extractMatch env k d data).lookup x = data.lookup x := by
  have hout : ∀ p ∈ env.order.order (Dict.items (AList.erase "key" d)), x ≠ p.1 := by
    intro p hp heq
    have hlook := Dict.mem_items.mp (env.order.mem_order.mp hp)
    rw [← heq] at hlook
    by_cases hk : x = "key"
    · rw [hk, AList.lookup_erase] at hlook
      cases hlook
    · rw [AList.lookup_erase_ne hk] at hlook
      exact hk (hx (Dict.mem_iff_lookup.mpr ⟨p.2, hlook⟩))
  unfold extractMatch
  generalize env.order.order (Dict.items (AList.erase "key" d)) = l at hout
  induction l generalizing data with
  | nil => rfl
  | cons p l ih =>
    rw [List.foldl_cons, ih (fun q hq => hout q (List.mem_cons_of_mem p hq)),
      AList.lookup_insert_ne (hout p List.mem_cons_self)]

theorem extract_frame {regexp : Option String} (hx : ¬ Writes env (.extract_from_key regexp) x)
    (h : _process_by_extract_from_key env data name regexp = .ok d') :
    d'.lookup x = data.lookup x := by
  unfold _process_by_extract_from_key at h
  split at h
  · cases h
    rfl
  · next pattern =>
    split at h
    · cases h
    · next c hc =>
      refine Except.foldlM_rest (I := fun _ d => d.lookup x = data.lookup x)
        (fun p l d d₁ hd hp => ?_) rfl h
      split at hp
      · cases hp
      · cases hp
        exact hd
      · next m hm =>
        cases hp
        rw [extractMatch_frame (fun hmem => ?_), hd]
        by_contra hkey
        exact hx ⟨p.1, m, hm, hmem, hkey⟩

theorem mergeDefs_frame {defn : Dict String (List Value)} (hx : x ≠ name) :
    (_process_by_merge_defs env data name defn).lookup x = data.lookup x := by
  have hcolumn : ∀ (l : List (Value × Value)) (d : Dataset), (l.foldl (fun d p =>
      AList.insert name (AList.insert p.1 p.2 ((d.lookup name).getD ∅)) d) d).lookup x
        = d.lookup x := by
    intro l
    induction l with
    | nil => intro d; rfl
    | cons p l ih =>
      intro d
      rw [List.foldl_cons, ih, AList.lookup_insert_ne hx]
  have hcolumns : ∀ (l : List Column) (d : Dataset), (l.foldl (fun d c =>
      (env.order.order c.items).foldl (fun d p =>
        AList.insert name (AList.insert p.1 p.2 ((d.lookup name).getD ∅)) d) d) d).lookup x
          = d.lookup x := by
    intro l
    induction l with
    | nil => intro d; rfl
    | cons c l ih =>
      intro d
      rw [List.foldl_cons, ih, hcolumn]
  unfold _process_by_merge_defs
  simp only
  split
  · exact AList.lookup_insert_ne hx
  · exact hcolumns _ _

theorem functionDelete_frame {text : String} (hx : x ≠ (Text.partition ':' text).1) :
    (functionDelete data text).lookup x = data.lookup x := by
  unfold functionDelete
  split
  · rfl
  · exact AList.lookup_insert_ne hx

theorem functionDeleteKey_frame {text : String} (h : functionDeleteKey env data text = .ok d') :
    d' = data := by
  unfold functionDeleteKey at h
  split at h
  · cases h
    rfl
  · refine Except.foldlM_rest (I := fun _ d => d = data) (fun p l d d₁ hd hp => ?_) rfl h
    obtain ⟨b, -, hp⟩ := Except.bind_eq_ok.mp hp
    cases b with
    | false =>
      cases hp
      exact hd
    | true => cases hp

theorem functionDeleteEntryUnless_frame {text : String}
    (hx : x ≠ (Text.partition ':' (String.ofList (partitionDouble '=' text.toList).1)).1)
    (h : functionDeleteEntryUnless env data text = .ok d') : d'.lookup x = data.lookup x := by
  unfold functionDeleteEntryUnless at h
  simp only at h
  split at h
  · cases h
    rfl
  · exact onColumn_frame hx h

theorem valueMath_frame {func : Option String} {value : Value} (hx : x ≠ name)
    (h : _process_by_value_math env data name func value = .ok d') :
    d'.lookup x = data.lookup x := by
  unfold _process_by_value_math at h
  split at h
  · cases h
    rfl
  · exact onColumn_frame hx h

theorem setValueAsKey_frame (hx : x ≠ name)
    (h : _process_by_set_value_as_key env data name = .ok d') : d'.lookup x = data.lookup x := by
  unfold _process_by_set_value_as_key at h
  split_ifs at h
  · exact onColumn_frame hx h
  · cases h
    rfl

/-- **The frame of a map**: it leaves the columns that are not its own and that it does not
write, and works in place. -/
theorem processDataset_frame {m : MapDef} (hx : x ≠ name) (hm : ¬ Writes env m x)
    (parent : Results) (data : Dataset) :
    Outcome (fun d => d.lookup x = data.lookup x) (fun _ d => d.lookup x = data.lookup x)
      (processDataset env parent name data m) := by
  cases m with
  | key_sub ref => exact outcome_inPlace (fun _ h => keyRemap_frame hx h) (fun _ _ => rfl)
  | value_sub defn => exact outcome_inPlace (fun _ h => valueRemap_frame hx h) (fun _ _ => rfl)
  | regexp y pattern => exact outcome_inPlace (fun _ h => regexp_frame hx h) (fun _ _ => rfl)
  | extract_from_key regexp =>
    exact outcome_inPlace (fun _ h => extract_frame hm h) (fun _ _ => rfl)
  | function y func =>
    simp only [Writes, not_or, not_and] at hm
    obtain ⟨hdelete, hunless, hgroup, hdataset⟩ := hm
    show Outcome _ _ (_process_by_function env data name y func)
    unfold _process_by_function
    split_ifs with h₁ h₂ h₃ h₄ h₅
    · exact outcome_inPlace (fun _ h => onColumn_frame hx h) (fun _ _ => rfl)
    · exact outcome_inPlace (fun _ h => onColumn_frame hx h) (fun _ _ => rfl)
    · refine outcome_inPlace (fun _ h => ?_) (fun _ _ => rfl)
      cases h
      exact functionDelete_frame (hdelete h₃)
    · refine outcome_inPlace (fun _ h => ?_) (fun _ _ => rfl)
      rw [functionDeleteKey_frame h]
    · exact outcome_inPlace (fun _ h => functionDeleteEntryUnless_frame (hunless h₅) h)
        (fun _ _ => rfl)
    · exact .ok rfl
  | value_math func value =>
    exact outcome_inPlace (fun _ h => valueMath_frame hx h) (fun _ _ => rfl)
  | to_array => exact absurd trivial hm
  | filter y mapping => exact outcome_inPlace (fun _ h => onColumn_frame hx h) (fun _ _ => rfl)
  | set_value_as_key =>
    exact outcome_inPlace (fun _ h => setValueAsKey_frame hx h) (fun _ _ => rfl)
  | swap_keys_and_values => exact .error rfl
  | merge_defs defn => exact .ok (mergeDefs_frame hx)
  | unknown name => exact .error rfl

end frame

/-- A column that a definition makes, takes, or writes otherwise. -/
def Touches (env : Env) (d : String × Item) (x : String) : Prop :=
  x = d.1 ∨ d.2.ref = some x ∨ ∃ m ∈ d.2.flat, Writes env m x

section remap

variable {field : String} {parent : Results} {item : Item} {d : Dataset} {out : Data}
  {x r : String}

/-- A definition takes its column where that has another name. -/
theorem takeRef_cases (h : takeRef (.dataset d) field item = .ok out) :
    ∃ d', out = .dataset d' ∧ (d' = d ∧ (∀ r, item.ref = some r → r ≠ field → d.lookup r = none)
      ∨ ∃ r c, item.ref = some r ∧ r ≠ field ∧ d.lookup r = some c
        ∧ d' = AList.insert field c (AList.erase r d)) := by
  unfold takeRef at h
  split at h
  · next href =>
    cases h
    refine ⟨d, rfl, Or.inl ⟨rfl, fun r hr => ?_⟩⟩
    rw [href] at hr
    cases hr
  · next ref href =>
    simp only [Data.column?, Except.ok_bind] at h
    split_ifs at h with htally hfield
    · cases h
      refine ⟨d, rfl, Or.inl ⟨rfl, fun r hr hne => ?_⟩⟩
      rw [href] at hr
      exact absurd ((Option.some.inj hr).symm.trans hfield) hne
    · unfold _process_by_field_rename at h
      cases hc : d.lookup ref with
      | none =>
        simp only [hc] at h
        split_ifs at h
        · cases h
          refine ⟨d, rfl, Or.inl ⟨rfl, fun r hr _ => ?_⟩⟩
          rw [href] at hr
          rw [← Option.some.inj hr]
          exact hc
        · cases h
      | some c =>
        simp only [hc] at h
        cases h
        exact ⟨_, rfl, Or.inr ⟨ref, c, href, hfield, hc, rfl⟩⟩

theorem takeRef_frame (hfield : x ≠ field) (href : item.ref ≠ some x)
    (h : takeRef (.dataset d) field item = .ok out) :
    ∃ d', out = .dataset d' ∧ d'.lookup x = d.lookup x := by
  obtain ⟨d', rfl, ⟨rfl, -⟩ | ⟨r, c, hr, -, -, rfl⟩⟩ := takeRef_cases h
  · exact ⟨d', rfl, rfl⟩
  · refine ⟨_, rfl, ?_⟩
    rw [AList.lookup_insert_ne hfield, AList.lookup_erase_ne (fun heq => href (by rw [heq, hr]))]

/-- The maps of a definition leave the columns that they do not write. -/
theorem remap_rest (hfield : x ≠ field) (hwrites : ∀ m ∈ item.flat, ¬ Writes env m x)
    (hout : remap env parent (.dataset d) field item = .ok out) :
    ∃ d₁ d', takeRef (.dataset d) field item = .ok (.dataset d₁) ∧ out = .dataset d'
      ∧ d'.lookup x = d₁.lookup x := by
  obtain ⟨taken, htake, -⟩ := Except.bind_eq_ok.mp hout
  obtain ⟨d₁, rfl, -⟩ := takeRef_cases htake
  have hsteps : ∀ m ∈ item.flat, ∀ parent (done : List MapDef) d', d'.lookup x = d₁.lookup x →
      Outcome (fun d' => d'.lookup x = d₁.lookup x) (fun _ d' => d'.lookup x = d₁.lookup x)
        (processDataset env parent field d' m) := by
    intro m hm parent done d' hd'
    have hframe := processDataset_frame hfield (hwrites m hm) parent d'
    rwa [hd'] at hframe
  obtain ⟨d', ⟨hok, hlook⟩ | ⟨e, herror, -⟩⟩ := remap_outcome hsteps htake rfl
  · refine ⟨d₁, d', htake, Except.ok.inj (hout.symm.trans hok), ?_⟩
    rcases hlook with hlook | ⟨e, -, hlook⟩
    · exact hlook
    · exact hlook
  · cases hout.symm.trans herror

/-- **The frame of a definition**: it leaves every column that it does not touch. -/
theorem remap_frame (hx : ¬ Touches env (field, item) x)
    (hout : remap env parent (.dataset d) field item = .ok out) :
    ∃ d', out = .dataset d' ∧ d'.lookup x = d.lookup x := by
  unfold Touches at hx
  rw [not_or, not_or] at hx
  obtain ⟨hfield, href, hwrites⟩ := hx
  obtain ⟨d₁, d', htake, hd', hlook⟩ :=
    remap_rest hfield (fun m hm hw => hwrites ⟨m, hm, hw⟩) hout
  obtain ⟨d₂, heq, hlook₂⟩ := takeRef_frame hfield href htake
  cases heq
  exact ⟨d', hd', hlook.trans hlook₂⟩

/-- A definition that makes another column of its own leaves nothing under the old name. -/
theorem remap_taken (href : item.ref = some r) (hfield : r ≠ field)
    (hwrites : ∀ m ∈ item.flat, ¬ Writes env m r)
    (hout : remap env parent (.dataset d) field item = .ok out) :
    ∃ d', out = .dataset d' ∧ d'.lookup r = none := by
  obtain ⟨d₁, d', htake, hd', hlook⟩ := remap_rest hfield hwrites hout
  refine ⟨d', hd', hlook.trans ?_⟩
  obtain ⟨d₂, heq, ⟨rfl, hnone⟩ | ⟨r', c, hr', -, -, rfl⟩⟩ := takeRef_cases htake
  · cases heq
    exact hnone r href hfield
  · cases heq
    rw [AList.lookup_insert_ne hfield, Option.some.inj (href.symm.trans hr'), AList.lookup_erase]

end remap

/-! ## Value-wise maps -/

/-- The maps that make each value of a column of the value at the same index: `value_sub` by a
dictionary, a constant or a prefix, a `regexp` on the value that names no key, a `function` of the
value, `value_math` and `filter`. -/
def ValueWise (env : Env) : MapDef → Prop
  | .value_sub (.dict _) => True
  | .value_sub (.set _) => True
  | .value_sub (.prefixed _) => True
  | .regexp y pattern => y = "value" ∧ ∀ v d, env.match? pattern v = .ok (some d) → "key" ∉ d
  | .function y _ => y = "value"
  | .value_math _ _ => True
  | .filter _ _ => True
  | _ => False

/-- The arithmetic of `value_math`; a value that it fails for stays. -/
def calculated (env : Env) (func : Option String) (value v : Value) : Value :=
  (match func with
    | none => none
    | some func => if func = "divide_by" then env.divide v value
        else if func = "multiply_by" then env.multiply v value else none).getD v

/-- What a value-wise map makes of a value at an index; `none` where it removes it. -/
def newValue (env : Env) : MapDef → Value → Value → Except Exn (Option Value)
  | .value_sub (.dict mapping), _, v => (substitute env mapping v).map some
  | .value_sub (.set s), _, _ => .ok (some s)
  | .value_sub (.prefixed s), _, v => .ok (some (.str (s.toText ++ v.toText)))
  | .regexp _ pattern, _, v =>
      .ok (some (((_process_regexp env v pattern).bind (fun d => d.lookup "value")).getD v))
  | .function _ func, _, v => .ok (some ((env.call func v).getD v))
  | .value_math func value, _, v => .ok (some (calculated env func value v))
  | .filter y mapping, k, v => .ok (if kept y mapping k v then some v else none)
  | _, _, v => .ok (some v)

/-- What a list of value-wise maps makes of a value at an index. -/
def newValues (env : Env) (ms : List MapDef) (k v : Value) : Except Exn (Option Value) :=
  ms.foldlM (fun o m => match o with
    | none => .ok none
    | some v => newValue env m k v) (some v)

section valueWise

variable {c : Column} {g : Value → Value → Except Exn (Option Value)}
  {step : Column → Value → Value → Except Exn Column} {name : String} {data : Dataset}

/-- A loop over the column of a definition. -/
theorem onColumn_image (hc : data.lookup name = some c) (hstep : Pointwise step g)
    (hkey : ∀ c k v e, step c k v = .error e → ¬ IsKeyError e) :
    Outcome (fun d => ∃ c', d.lookup name = some c' ∧ Image g c c') (fun e _ => ¬ IsKeyError e)
      (.inPlace data (onColumn data name (forItems env step))) := by
  unfold onColumn
  simp only [hc]
  cases hloop : forItems env step c with
  | ok c' => exact .ok ⟨c', AList.lookup_insert _, forItems_image hstep hloop⟩
  | error e =>
    obtain ⟨c, p, -, herror⟩ := exists_of_foldlM_error hloop
    exact .error (hkey c p.1 p.2 e herror)

/-- A loop that sets the value at its index where there is one to set. -/
theorem pointwise_set (o : Value → Value → Option Value) :
    Pointwise (fun c k v => .ok (match o k v with
      | some w => AList.insert k w c
      | none => c)) (fun k v => .ok (some ((o k v).getD v))) := by
  intro c k v c' hk h
  have hc' := Except.ok.inj h
  cases ho : o k v with
  | none =>
    simp only [ho] at hc'
    rw [← hc', hk]
    exact ⟨by simp only [ho, Option.getD_none], fun _ _ => rfl⟩
  | some w =>
    simp only [ho] at hc'
    rw [← hc', AList.lookup_insert]
    exact ⟨by simp only [ho, Option.getD_some], fun k' hk' => AList.lookup_insert_ne hk'⟩

theorem firstFound_error {text : String} {l : List (Value × Value)} {e : Exn}
    (h : firstFound env text l = .error e) : ∃ msg, e = .exception msg := by
  induction l with
  | nil => cases h
  | cons p l ih =>
    unfold firstFound at h
    split at h
    · cases h
      exact ⟨_, rfl⟩
    · cases h
    · exact ih h

theorem pointwise_substitute (mapping : Dict Value Value) :
    Pointwise (fun c k v => (substitute env mapping v).map (fun w => AList.insert k w c))
      (fun _ v => (substitute env mapping v).map some) := by
  intro c k v c' _ h
  beta_reduce at h ⊢
  cases hw : substitute env mapping v with
  | error e =>
    rw [hw] at h
    cases h
  | ok w =>
    rw [hw] at h
    cases h
    rw [AList.lookup_insert]
    exact ⟨rfl, fun k' hk' => AList.lookup_insert_ne hk'⟩

/-- The loop of a `value_sub` by a dictionary. -/
theorem substitute_image (mapping : Dict Value Value) (hc : data.lookup name = some c) :
    Outcome (fun d => ∃ c', d.lookup name = some c'
        ∧ Image (fun _ v => (substitute env mapping v).map some) c c') (fun e _ => ¬ IsKeyError e)
      (.inPlace data (onColumn data name (forItems env (fun c k v =>
        (substitute env mapping v).map (fun w => AList.insert k w c))))) := by
  refine onColumn_image hc (pointwise_substitute mapping) (fun c k v e h => ?_)
  unfold substitute at h
  split at h
  · cases h
  · cases hfound : firstFound env v.toText (env.order.order mapping.items) with
    | ok found =>
      rw [hfound] at h
      cases h
    | error e' =>
      rw [hfound] at h
      cases h
      obtain ⟨msg, rfl⟩ := firstFound_error hfound
      exact id

theorem regexpEntry_of_notKey {d : Option (Dict String Value)} (hd : ∀ d' ∈ d, "key" ∉ d')
    (c : Column) (k v : Value) : regexpEntry d c k v
      = match d.bind (fun d => d.lookup "value") with
        | some w => AList.insert k w c
        | none => c := by
  cases d with
  | none => rfl
  | some d =>
    cases hvalue : AList.lookup "value" d <;>
      simp only [regexpEntry, AList.lookup_eq_none.mpr (hd d rfl), Option.bind_some, hvalue]

theorem pointwise_filter (keep : Value → Value → Bool) :
    Pointwise (fun c k v => .ok (if keep k v then c else AList.erase k c))
      (fun k v => .ok (if keep k v then some v else none)) := by
  intro c k v c' hk h
  have hc' := Except.ok.inj h
  cases hkeep : keep k v with
  | true =>
    simp only [hkeep, if_true] at hc' ⊢
    rw [← hc', hk]
    exact ⟨rfl, fun _ _ => rfl⟩
  | false =>
    simp only [hkeep, Bool.false_eq_true, if_false] at hc' ⊢
    rw [← hc', AList.lookup_erase]
    exact ⟨rfl, fun k' hk' => AList.lookup_erase_ne hk'⟩

/-- **One value-wise map**: the column afterwards is the image of the column before. -/
theorem processDataset_image {m : MapDef} (hm : ValueWise env m) (parent : Results)
    (hc : data.lookup name = some c) :
    Outcome (fun d => ∃ c', d.lookup name = some c' ∧ Image (newValue env m) c c')
      (fun e _ => ¬ IsKeyError e) (processDataset env parent name data m) := by
  have hnever : ∀ {step : Column → Value → Value → Column} (c k v) (e : Exn),
      (Except.ok (step c k v) : Except Exn Column) = .error e → ¬ IsKeyError e :=
    fun _ _ _ _ h => by cases h
  cases m with
  | value_sub defn =>
    cases defn with
    | dict mapping => exact substitute_image mapping hc
    | set s => exact onColumn_image hc (pointwise_set (fun _ _ => some s)) hnever
    | prefixed s =>
      exact onColumn_image hc (pointwise_set (fun _ v => some (.str (s.toText ++ v.toText)))) hnever
    | _ => exact hm.elim
  | regexp y pattern =>
    obtain ⟨rfl, hkey⟩ := hm
    have hentry : (fun (c : Column) k v => (Except.ok
        (regexpEntry (_process_regexp env v pattern) c k v) : Except Exn Column))
        = fun c k v => .ok (match (_process_regexp env v pattern).bind (fun d => d.lookup "value")
          with
          | some w => AList.insert k w c
          | none => c) := by
      funext c k v
      rw [regexpEntry_of_notKey]
      intro d hd
      unfold _process_regexp at hd
      split at hd
      · next d' hmatch =>
        rw [Option.mem_def.mp hd] at hmatch
        exact hkey v d hmatch
      · cases hd
    show Outcome _ _ (.inPlace data (_process_by_regexp env data name "value" pattern))
    unfold _process_by_regexp
    rw [if_neg (by decide), if_pos rfl, hentry]
    exact onColumn_image hc
      (pointwise_set (fun _ v => (_process_regexp env v pattern).bind (fun d => d.lookup "value")))
      hnever
  | function y func =>
    obtain rfl : y = "value" := hm
    exact onColumn_image hc (pointwise_set (fun _ v => env.call func v)) hnever
  | value_math func value =>
    cases func with
    | none =>
      refine .ok ⟨c, hc, fun k => ?_⟩
      cases hk : c.lookup k with
      | none => rfl
      | some v => rfl
    | some func =>
      exact onColumn_image hc (pointwise_set (fun _ v => if func = "divide_by" then
        env.divide v value else if func = "multiply_by" then env.multiply v value else none)) hnever
  | filter y mapping => exact onColumn_image hc (pointwise_filter (kept y mapping)) hnever
  | _ => exact hm.elim

/-- The image under one more map. -/
theorem Image.after {ms : List MapDef} {m : MapDef} {c c₁ c₂ : Column}
    (h : Image (newValues env ms) c c₁) (h' : Image (newValue env m) c₁ c₂) :
    Image (newValues env (ms ++ [m])) c c₂ := by
  intro k
  have hk := h k
  have hk' := h' k
  cases hc : c.lookup k with
  | none =>
    simp only [hc] at hk
    simp only [hk] at hk'
    exact hk'
  | some v =>
    simp only [hc] at hk
    unfold newValues at hk ⊢
    simp only
    rw [List.foldlM_append, hk, Except.ok_bind]
    cases hc₁ : c₁.lookup k with
    | none =>
      simp only [hc₁] at hk'
      rw [hk']
      rfl
    | some v₁ =>
      simp only [hc₁] at hk'
      rw [List.foldlM_cons]
      simp only [hk', Except.ok_bind]
      rfl

/-- **The value-wise maps of a definition**: its column is the image of the column that it has
taken under all of them. -/
theorem remap_image {field : String} {parent : Results} {item : Item} {data out : Data}
    (hmaps : ∀ m ∈ item.flat, ValueWise env m)
    (hout : remap env parent data field item = .ok out) {d : Dataset}
    (htake : takeRef data field item = .ok (.dataset d)) (hc : d.lookup field = some c) :
    ∃ d' c', out = .dataset d' ∧ d'.lookup field = some c'
      ∧ Image (newValues env item.flat) c c' := by
  have hsteps : ∀ m ∈ item.flat, ∀ parent done d',
      (∃ c', d'.lookup field = some c' ∧ Image (newValues env done) c c') →
        Outcome (fun d' => ∃ c', d'.lookup field = some c' ∧ Image (newValues env (done ++ [m])) c c')
          (fun e _ => ¬ IsKeyError e) (processDataset env parent field d' m) := by
    rintro m hm parent done d' ⟨c₁, hc₁, himage⟩
    have hmap := processDataset_image (hmaps m hm) parent hc₁
    generalize processDataset env parent field d' m = call at hmap ⊢
    cases hmap with
    | ok h =>
      obtain ⟨c₂, hc₂, himage₂⟩ := h
      exact .ok ⟨c₂, hc₂, himage.after himage₂⟩
    | error h => exact .error h
  have hstart : Image (newValues env []) c c := by
    intro k
    cases c.lookup k <;> rfl
  obtain ⟨d', ⟨hok, hend⟩ | ⟨e, herror, -⟩⟩ := remap_outcome hsteps htake ⟨c, hc, hstart⟩
  · rcases hend with ⟨c', hc', himage⟩ | ⟨e, he, hne⟩
    · exact ⟨d', c', Except.ok.inj (hout.symm.trans hok), hc', himage⟩
    · exact absurd he hne
  · cases hout.symm.trans herror

end valueWise

end DriverMaps
