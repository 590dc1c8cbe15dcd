/-
# The order in which the groups are visited

`post_remap` visits the groups of the data in the order of a dictionary, and changes
their records in place: the index is inserted, fields are renamed or removed.  The
`post_merge` and `post_key_sub` steps of another group see these changes if they come
later.

A visit without user functions changes the records of its own group only, and depends
on these and on the records of the groups it reads (`visitGroup_congr`,
`visitGroup_frame`).  Hence all orders in which every group finds the records it reads
as they were collected have the same results (`postRemap_sameResults`).
-/
import Ptolemy.PostRemap
import Ptolemy.Run

namespace Driver

variable (env : Env)

namespace World

@[simp] theorem set_records_self (w : World) (d : Ref) (r : Record) : (w.set d r).records d = r :=
  Function.update_self _ _ _

theorem set_records_of_ne (w : World) {d ref : Ref} (r : Record) (h : ref ≠ d) :
    (w.set d r).records ref = w.records ref := Function.update_of_ne h _ _

theorem set_records (w : World) (d ref : Ref) (r : Record) :
    (w.set d r).records ref = if ref = d then r else w.records ref := Function.update_apply _ _ _ _

@[simp] theorem set_set (w : World) (d : Ref) (r r' : Record) : (w.set d r).set d r' = w.set d r' := by
  unfold set
  rw [Function.update_idem]

@[simp] theorem set_same (w : World) (d : Ref) : w.set d (w.records d) = w := by
  unfold set
  rw [Function.update_eq_self]

end World

/-! ## Steps on one record -/

/-- The maps that need no function of the driver and work on one record. -/
def PerRecord : PostMap → Prop
  | .post_merge _ => False
  | .post_function _ => False
  | .unknown _ => False
  | _ => True

/-- The maps that need no function of the driver. -/
def WithoutFunctions : PostMap → Prop
  | .post_function _ => False
  | .unknown _ => False
  | _ => True

/-- One field of `post_key_sub`, for a record that is kept apart from the world. -/
def keySubRecord (g : String) (d : Ref) (w : World) (r : Record) (p : String × String) :
    Except Exn Record :=
  match r.lookup p.1 with
  | none => pure r
  | some v => match w.data.lookup (keySubTarget g p.2).1 with
    | none => throw (.keyError (keySubTarget g p.2).1)
    | some items => match items.lookup (keySubTarget g p.2).2 with
      | none => pure r
      | some ref => match v with
        | .str s => match (if ref = d then r else w.records ref).lookup s with
          | none => pure r
          | some u => pure (r.insert p.1 u)
        | .list _ => throw (.typeError "unhashable type: 'list'")
        | _ => pure r

/-- A step, for a record that is kept apart from the world: the groups it is yielded for, and
what it becomes. -/
def recordStep (g : String) (d : Ref) (w : World) (r : Record) :
    PostMap → Except Exn (List (Option String) × Record)
  | .post_null => pure ([some g], r)
  | .post_extract defn => do
    let r ← (env.order.order defn.items).foldlM (extractField env) r
    pure ([some g], r)
  | .post_key_sub defn => do
    let r ← (env.order.order defn.items).foldlM (keySubRecord g d w) r
    pure ([some g], r)
  | .post_default_value defn => pure ([some g], (env.order.order defn.items).foldl defaultField r)
  | .post_key_rename defn => pure ([some g], (env.order.order defn.items).foldl renameField r)
  | .post_remove defn => pure
      (((env.order.order defn.items).flatMap (removeField r)).map (fun _ => none) ++ [some g], r)
  | .post_clean defn => pure ([some g], defn.foldl (fun r i => r.erase i) r)
  | .post_new_group_from_field field => pure (match field with
      | none => ([], r)
      | some f => match r.lookup f with
        | none => ([], r)
        | some v => ([some (g ++ "@" ++ f ++ "=" ++ v.toText)], r.erase f))
  | .post_merge _ => pure ([], r)
  | .post_function _ => pure ([], r)
  | .unknown name => throw (.keyError name)

/-- Groups that one record is yielded for. -/
def yieldsOf (d : Ref) (gs : List (Option String)) : List (Option (String × Ref)) :=
  gs.map (Option.map (fun g => (g, d)))

theorem keySubField_set (g : String) (d : Ref) (w : World) (r : Record) (p : String × String) :
    keySubField g d (w.set d r) p = (keySubRecord g d w r p).map (w.set d) := by
  unfold keySubField keySubRecord
  rw [World.set_records_self]
  cases r.lookup p.1 with
  | none => rfl
  | some v =>
    show (match w.data.lookup (keySubTarget g p.2).1 with
      | none => _
      | some items => _) = _
    cases w.data.lookup (keySubTarget g p.2).1 with
    | none => rfl
    | some items =>
      simp only
      cases items.lookup (keySubTarget g p.2).2 with
      | none => rfl
      | some ref =>
        cases v with
        | str s =>
          simp only [World.set_records, World.set_set]
          cases (if ref = d then r else w.records ref).lookup s <;> rfl
        | _ => rfl

theorem foldlM_keySubField_set (g : String) (d : Ref) (w : World) (l : List (String × String))
    (r : Record) :
    l.foldlM (keySubField g d) (w.set d r) = (l.foldlM (keySubRecord g d w) r).map (w.set d) := by
  induction l generalizing r with
  | nil => rfl
  | cons p l ih =>
    rw [List.foldlM_cons, List.foldlM_cons, keySubField_set]
    cases keySubRecord g d w r p with
    | error e => rfl
    | ok r' => exact ih r'

theorem flatMap_removeField (r : Record) (l : List (String × Value)) :
    l.flatMap (removeField r) = (l.flatMap (removeField r)).map (fun _ => none) := by
  have hnone : ∀ y ∈ l.flatMap (removeField r), y = none := by
    intro y hy
    obtain ⟨p, -, hp⟩ := List.mem_flatMap.mp hy
    unfold removeField at hp
    split at hp
    · split_ifs at hp
      · exact List.mem_singleton.mp hp
      · exact absurd hp List.not_mem_nil
    · exact List.mem_singleton.mp hp
  conv_lhs => rw [← List.map_id (l.flatMap (removeField r))]
  exact List.map_congr_left hnone

/-- **A step works on its record**: it changes nothing else, and yields nothing else. -/
theorem step_set {m : PostMap} (hm : PerRecord m) (g : String) (d : Ref) (w : World) (r : Record) :
    step env g d (w.set d r) m
      = (recordStep env g d w r m).map (fun p => (yieldsOf d p.1, w.set d p.2)) := by
  cases m with
  | post_null => rfl
  | post_extract defn =>
    simp only [step, recordStep, World.set_records_self, World.set_set]
    cases (env.order.order defn.items).foldlM (extractField env) r <;> rfl
  | post_key_sub defn =>
    simp only [step, recordStep, foldlM_keySubField_set]
    cases (env.order.order defn.items).foldlM (keySubRecord g d w) r <;> rfl
  | post_default_value defn =>
    simp only [step, recordStep, World.set_records_self, World.set_set]
    rfl
  | post_key_rename defn =>
    simp only [step, recordStep, World.set_records_self, World.set_set]
    rfl
  | post_remove defn =>
    simp only [step, recordStep, World.set_records_self]
    rw [flatMap_removeField]
    show Except.ok _ = Except.ok (yieldsOf d _, w.set d r)
    unfold yieldsOf
    rw [List.map_append, List.map_map, List.map_map]
    rfl
  | post_clean defn =>
    simp only [step, recordStep, World.set_records_self, World.set_set]
    rfl
  | post_new_group_from_field field =>
    cases field with
    | none => rfl
    | some f =>
      simp only [step, recordStep, World.set_records_self, World.set_set]
      cases r.lookup f <;> rfl
  | post_merge defn => exact hm.elim
  | post_function defn => exact hm.elim
  | unknown name => exact hm.elim

/-- The maps of a record, one after the other. -/
def recordMaps (g : String) (d : Ref) (w : World) :
    List PostMap → Option String → Record → Except Exn (Option String × Record)
  | [], cur, r => pure (cur, r)
  | m :: ms, cur, r => match cur with
    | none => recordMaps g d w ms none r
    | some thisG =>
      if r.items.isEmpty then recordMaps g d w ms (some thisG) r
      else do
        let (gs, r) ← recordStep env g d w r m
        recordMaps g d w ms (consume (some thisG) gs) r

theorem consume_yieldsOf (d : Ref) (cur : Option String) (gs : List (Option String)) :
    consume (cur.map (fun g => (g, d))) (yieldsOf d gs)
      = (consume cur gs).map (fun g => (g, d)) := by
  induction gs generalizing cur with
  | nil => rfl
  | cons y gs ih =>
    cases y with
    | none => rfl
    | some g => exact ih (some g)

theorem runMaps_set {ms : List PostMap} (hms : ∀ m ∈ ms, PerRecord m) (g : String) (d : Ref)
    (w : World) (cur : Option String) (r : Record) :
    runMaps env g ms (cur.map (fun g => (g, d))) (w.set d r)
      = (recordMaps env g d w ms cur r).map
        (fun p => (p.1.map (fun g => (g, d)), w.set d p.2)) := by
  induction ms generalizing cur r with
  | nil => rfl
  | cons m ms ih =>
    have ih' := fun cur r => ih (fun m' hm' => hms m' (List.mem_cons_of_mem m hm')) cur r
    cases cur with
    | none => exact ih' none r
    | some thisG =>
      show (if ((w.set d r).records d).items.isEmpty then _ else _) = Except.map _ (ite _ _ _)
      rw [World.set_records_self]
      by_cases hr : r.items.isEmpty = true
      · rw [if_pos hr, if_pos hr]
        exact ih' (some thisG) r
      · rw [if_neg hr, if_neg hr, step_set env (hms m List.mem_cons_self)]
        cases recordStep env g d w r m with
        | error e => rfl
        | ok p =>
          obtain ⟨gs, r'⟩ := p
          show runMaps env g ms (consume (some (thisG, d)) (yieldsOf d gs)) (w.set d r')
            = Except.map _ (recordMaps env g d w ms (consume (some thisG) gs) r')
          have hcur := consume_yieldsOf d (some thisG) gs
          rw [Option.map_some] at hcur
          rw [hcur, ih']

/-! ## Merged records -/

/-- The records that `post_merge` makes of the records of one group. -/
def mergedRecords (look : Ref → Record) (s : String) : List Ref → Record → List Record
  | [], _ => []
  | ref :: refs, this =>
    let this := (env.order.order (look ref).items).foldl
      (fun this p => this.insert (withoutText s p.1) p.2) this
    this :: mergedRecords look s refs this

/-- The records that `post_merge` makes. -/
def mergedGroups (w : World) : List (String × String) → List Record
  | [] => []
  | (k, s) :: l => (match w.data.lookup k with
    | none => []
    | some items => mergedRecords env w.records s ((env.order.order items.items).map Prod.snd) ∅)
      ++ mergedGroups w l

/-! ## One index of a group -/

/-- `finishItem`, for a record that is kept apart from the world. -/
def recordFinish (removeKey : Bool) (keyName : String) (cur : Option String) (r : Record) :
    Except Exn (Option String × Record) :=
  match cur with
  | none => pure (none, r)
  | some thisG =>
    if r.items.isEmpty then pure (none, r)
    else if removeKey then
      if keyName ∈ r then pure (some thisG, r.erase keyName) else throw (.keyError keyName)
    else pure (some thisG, r)

theorem finishItem_set (removeKey : Bool) (keyName : String)
    (results : List (Option (String × Ref))) (d : Ref) (w : World) (cur : Option String)
    (r : Record) :
    finishItem removeKey keyName results (cur.map (fun g => (g, d))) (w.set d r)
      = (recordFinish removeKey keyName cur r).map
        (fun p => ⟨w.set d p.2, results ++ yieldsOf d (p.1.toList.map some)⟩) := by
  cases cur with
  | none =>
    show Except.ok (State.mk (w.set d r) results) = Except.ok ⟨w.set d r, results ++ []⟩
    rw [List.append_nil]
  | some thisG =>
    show (if ((w.set d r).records d).items.isEmpty then _ else _) = Except.map _ (ite _ _ _)
    rw [World.set_records_self, World.set_set]
    split_ifs
    · show Except.ok (State.mk (w.set d r) results) = Except.ok ⟨w.set d r, results ++ []⟩
      rw [List.append_nil]
    · rfl
    · rfl
    · rfl

section Group

variable (posts : Posts) (keys : Dict String String) (g : String)

/-- `visitItem`, for a record that is kept apart from the world. -/
def itemRecord (k : String) (d : Ref) (w : World) (r : Record) :
    Except Exn (Option String × Record) := do
  let key ← (keys.lookup g).elim (throw (.keyError g)) pure
  let (cur, r) ← recordMaps env g d w (postMaps posts g) (some g)
    (if key ∈ r then r else r.insert key (.str k))
  recordFinish (removeKeyOf posts g).1 (removeKeyOf posts g).2 cur r

/-- **The turn of an index works on its record.** -/
theorem visitItem_eq (hms : ∀ m ∈ postMaps posts g, PerRecord m) {s : State} {k : String}
    {items : Dict String Ref} {d : Ref} (hitems : s.world.data.lookup g = some items)
    (hd : items.lookup k = some d) :
    visitItem env posts keys g s k
      = (itemRecord env posts keys g k d s.world (s.world.records d)).map
        (fun p => ⟨s.world.set d p.2, s.results ++ yieldsOf d (p.1.toList.map some)⟩) := by
  unfold visitItem itemRecord
  cases hkey : keys.lookup g with
  | none =>
    have htake : takeItem keys g k s.world = .error (.keyError g) := by
      simp only [takeItem, hitems, hd, hkey, Option.elim_some, Option.elim_none, pure, Except.pure,
        Except.ok_bind]
      rfl
    rw [htake]
    rfl
  | some key =>
    have htake : takeItem keys g k s.world = .ok (d, s.world.set d
        (if key ∈ s.world.records d then s.world.records d
          else (s.world.records d).insert key (.str k))) := by
      simp only [takeItem, hitems, hd, hkey, Option.elim_some, pure, Except.pure, Except.ok_bind]
      split_ifs
      · rw [World.set_same]
      · rfl
    rw [htake]
    have hrun := runMaps_set env hms g d s.world (some g) (if key ∈ s.world.records d then
      s.world.records d else (s.world.records d).insert key (.str k))
    rw [Option.map_some] at hrun
    simp only [Except.ok_bind, Option.elim_some, pure, Except.pure]
    rw [hrun]
    cases recordMaps env g d s.world (postMaps posts g) (some g) (if key ∈ s.world.records d then
        s.world.records d else (s.world.records d).insert key (.str k)) with
    | error e => rfl
    | ok p => exact finishItem_set _ _ _ d s.world p.1 p.2

/-! ## What a visit depends on -/

/-- The records of a group. -/
def Owns (data : Dict String (Dict String Ref)) (g : String) (r : Ref) : Prop :=
  ∃ items k, data.lookup g = some items ∧ items.lookup k = some r

/-- A called map of group `g` reads the group `h`. -/
def Reads (h : String) : Prop :=
  (∃ defn, workOnDataset env (postMaps posts g) false = .ok true
      ∧ (postMaps posts g).getLast? = some (.post_merge defn) ∧ h ∈ defn)
    ∨ ∃ defn f ref, workOnDataset env (postMaps posts g) false = .ok false
      ∧ .post_key_sub defn ∈ postMaps posts g ∧ defn.lookup f = some ref
      ∧ (keySubTarget g ref).1 = h

/-- The records that the visit of a group depends on: its own, and those of the groups it
reads. -/
def Near (data : Dict String (Dict String Ref)) (r : Ref) : Prop :=
  Owns data g r ∨ ∃ h, Reads env posts g h ∧ Owns data h r

variable {env posts keys g}

/-- Two worlds with the same data, and the same records where `P` holds. -/
structure AgreeOn (P : Ref → Prop) (w w' : World) : Prop where
  data : w'.data = w.data
  records : ∀ r, P r → w'.records r = w.records r

theorem AgreeOn.set {P : Ref → Prop} {w w' : World} (h : AgreeOn P w w') (d : Ref) (r : Record) :
    AgreeOn P (w.set d r) (w'.set d r) := by
  refine ⟨h.data, fun ref href => ?_⟩
  rw [World.set_records, World.set_records, h.records ref href]

theorem keySubRecord_congr {P : Ref → Prop} {w w' : World} (h : AgreeOn P w w') {d : Ref}
    {p : String × String} (hp : ∀ r, Owns w.data (keySubTarget g p.2).1 r → P r) (r : Record) :
    keySubRecord g d w' r p = keySubRecord g d w r p := by
  unfold keySubRecord
  rw [h.data]
  cases r.lookup p.1 with
  | none => rfl
  | some v =>
    cases hitems : w.data.lookup (keySubTarget g p.2).1 with
    | none => rfl
    | some items =>
      simp only
      cases href : items.lookup (keySubTarget g p.2).2 with
      | none => rfl
      | some ref =>
        simp only
        rw [h.records ref (hp ref ⟨items, _, hitems, href⟩)]

theorem foldlM_congr_of_mem {α β : Type} {f f' : α → β → Except Exn α} {l : List β}
    (h : ∀ b ∈ l, ∀ a, f a b = f' a b) (a : α) : l.foldlM f a = l.foldlM f' a := by
  induction l generalizing a with
  | nil => rfl
  | cons b l ih =>
    rw [List.foldlM_cons, List.foldlM_cons, h b List.mem_cons_self]
    cases f' a b with
    | error e => rfl
    | ok a' => exact ih (fun c hc => h c (List.mem_cons_of_mem b hc)) a'

theorem recordStep_congr {P : Ref → Prop} {w w' : World} (h : AgreeOn P w w') {d : Ref}
    {m : PostMap} (hm : ∀ defn f ref, m = .post_key_sub defn → defn.lookup f = some ref →
      ∀ r, Owns w.data (keySubTarget g ref).1 r → P r) (r : Record) :
    recordStep env g d w' r m = recordStep env g d w r m := by
  cases m with
  | post_key_sub defn =>
    have hfold : (env.order.order defn.items).foldlM (keySubRecord g d w') r
        = (env.order.order defn.items).foldlM (keySubRecord g d w) r := by
      have hturn : ∀ p ∈ env.order.order defn.items, ∀ r,
          keySubRecord g d w' r p = keySubRecord g d w r p := by
        intro p hp r
        have hp' : defn.lookup p.1 = some p.2 := Dict.mem_items.mp (env.order.mem_order.mp hp)
        exact keySubRecord_congr h (hm defn p.1 p.2 rfl hp') r
      exact foldlM_congr_of_mem hturn r
    simp only [recordStep, hfold]
  | _ => rfl

theorem recordMaps_congr {P : Ref → Prop} {w w' : World} (h : AgreeOn P w w') {d : Ref}
    {ms : List PostMap} (hms : ∀ defn f ref, .post_key_sub defn ∈ ms → defn.lookup f = some ref →
      ∀ r, Owns w.data (keySubTarget g ref).1 r → P r) (cur : Option String) (r : Record) :
    recordMaps env g d w' ms cur r = recordMaps env g d w ms cur r := by
  induction ms generalizing cur r with
  | nil => rfl
  | cons m ms ih =>
    have ih' := ih (fun defn f ref hmem => hms defn f ref (List.mem_cons_of_mem m hmem))
    cases cur with
    | none => exact ih' none r
    | some thisG =>
      have hstep : recordStep env g d w' r m = recordStep env g d w r m := recordStep_congr h
        (fun defn f ref heq => hms defn f ref (heq ▸ List.mem_cons_self)) r
      rw [recordMaps, recordMaps, ih', hstep]
      split_ifs
      · rfl
      · cases recordStep env g d w r m with
        | error e => rfl
        | ok p => exact ih' _ _

/-- The turn of an index reads the records of the groups that its keys are looked up in. -/
theorem itemRecord_of_agreeOn {P : Ref → Prop} {w w' : World} (h : AgreeOn P w w')
    (hP : ∀ defn f ref, .post_key_sub defn ∈ postMaps posts g → defn.lookup f = some ref →
      ∀ r, Owns w.data (keySubTarget g ref).1 r → P r) (k : String) (d : Ref) (r : Record) :
    itemRecord env posts keys g k d w' r = itemRecord env posts keys g k d w r := by
  unfold itemRecord
  cases keys.lookup g with
  | none => rfl
  | some key =>
    simp only [Option.elim_some, pure, Except.pure, Except.ok_bind]
    rw [recordMaps_congr h hP]

/-- **The turn of an index depends on the records near its group.** -/
theorem itemRecord_congr {w w' : World} (h : AgreeOn (Near env posts g w.data) w w')
    (hwork : workOnDataset env (postMaps posts g) false = .ok false) (k : String) (d : Ref)
    (r : Record) :
    itemRecord env posts keys g k d w' r = itemRecord env posts keys g k d w r :=
  itemRecord_of_agreeOn h (fun defn f ref hmem hf _ hr =>
    Or.inr ⟨_, Or.inr ⟨defn, f, ref, hwork, hmem, hf, rfl⟩, hr⟩) k d r

/-! ## Visits -/

/-- What is appended to the results, as values. -/
def values (w : World) (l : List (Option (String × Ref))) : List (Option (String × Record)) :=
  l.map (Option.map (fun q => (q.1, w.records q.2)))

/-- From `s` to `t` no record has changed but those of `own` and new ones, and the results have
grown by `l`, which refers to such records only. -/
structure Visited (own : Ref → Prop) (s t : State) (l : List (Option (String × Ref))) : Prop where
  data : t.world.data = s.world.data
  next_le : s.world.next ≤ t.world.next
  frame : ∀ r, r < s.world.next → ¬ own r → t.world.records r = s.world.records r
  results : t.results = s.results ++ l
  mem : ∀ q, some q ∈ l → (own q.2 ∨ s.world.next ≤ q.2) ∧ q.2 < t.world.next

theorem Visited.refl (own : Ref → Prop) (s : State) : Visited own s s [] where
  data := rfl
  next_le := le_refl _
  frame := fun _ _ _ => rfl
  results := (List.append_nil _).symm
  mem := fun _ h => absurd h List.not_mem_nil

theorem Visited.trans {own : Ref → Prop} {s t u : State} {l l' : List (Option (String × Ref))}
    (h : Visited own s t l) (h' : Visited own t u l') : Visited own s u (l ++ l') where
  data := h'.data.trans h.data
  next_le := le_trans h.next_le h'.next_le
  frame := by
    intro r hr hown
    rw [h'.frame r (lt_of_lt_of_le hr h.next_le) hown, h.frame r hr hown]
  results := by
    rw [h'.results, h.results, List.append_assoc]
  mem := by
    intro q hq
    rcases List.mem_append.mp hq with hq | hq
    · exact ⟨(h.mem q hq).1, lt_of_lt_of_le (h.mem q hq).2 h'.next_le⟩
    · refine ⟨(h'.mem q hq).1.imp_right (fun hle => le_trans h.next_le hle), (h'.mem q hq).2⟩

/-- Two visits that both raise, or append the same values and leave the same records where `P`
holds. -/
def Alike (P own : Ref → Prop) (s s' : State) : Except Exn State → Except Exn State → Prop
  | .error e, .error e' => e = e'
  | .ok t, .ok t' => ∃ l l', Visited own s t l ∧ Visited own s' t' l'
      ∧ values t'.world l' = values t.world l ∧ AgreeOn P t.world t'.world
  | _, _ => False

/-! ### Visits by index -/

/-- What is yielded for one record of the group. -/
theorem visited_yieldsOf {own : Ref → Prop} {s : State} {d : Ref} (hown : own d)
    (hd : d < s.world.next) (r : Record) (cur : Option String) :
    Visited own s ⟨s.world.set d r, s.results ++ yieldsOf d (cur.toList.map some)⟩
      (yieldsOf d (cur.toList.map some)) where
  data := rfl
  next_le := le_refl _
  frame := by
    intro ref _ href
    refine World.set_records_of_ne s.world r (fun hc => href ?_)
    rw [hc]
    exact hown
  results := rfl
  mem := by
    intro q hq
    cases cur with
    | none => exact absurd hq List.not_mem_nil
    | some thisG =>
      have hq' : some q ∈ [some (thisG, d)] := hq
      rw [Option.some.inj (List.mem_singleton.mp hq')]
      exact ⟨Or.inl hown, hd⟩

theorem visitItems_alike (hwork : workOnDataset env (postMaps posts g) false = .ok false)
    (hms : ∀ m ∈ postMaps posts g, PerRecord m) {data : Dict String (Dict String Ref)}
    {items : Dict String Ref} (hitems : data.lookup g = some items) {ks : List String}
    (hks : ∀ k ∈ ks, ∃ d, items.lookup k = some d) {s s' : State} (hs : s.world.data = data)
    (h : AgreeOn (Near env posts g data) s.world s'.world)
    (hlt : ∀ r, Owns data g r → r < s.world.next ∧ r < s'.world.next) :
    Alike (Near env posts g data) (Owns data g) s s'
      (ks.foldlM (visitItem env posts keys g) s) (ks.foldlM (visitItem env posts keys g) s') := by
  -- the two visits append the same references, which are near the group
  suffices hsame : (∃ e, ks.foldlM (visitItem env posts keys g) s = .error e
        ∧ ks.foldlM (visitItem env posts keys g) s' = .error e)
      ∨ ∃ t t' l, ks.foldlM (visitItem env posts keys g) s = .ok t
        ∧ ks.foldlM (visitItem env posts keys g) s' = .ok t'
        ∧ Visited (Owns data g) s t l ∧ Visited (Owns data g) s' t' l
        ∧ (∀ q, some q ∈ l → Owns data g q.2)
        ∧ AgreeOn (Near env posts g data) t.world t'.world by
    rcases hsame with ⟨e, he, he'⟩ | ⟨t, t', l, ht, ht', hv, hv', hown, hagree⟩
    · rw [he, he']
      exact rfl
    · rw [ht, ht']
      refine ⟨l, l, hv, hv', List.map_congr_left (fun y hy => ?_), hagree⟩
      cases y with
      | none => rfl
      | some q =>
        show some (q.1, t'.world.records q.2) = some (q.1, t.world.records q.2)
        rw [hagree.records q.2 (Or.inl (hown q hy))]
  induction ks generalizing s s' with
  | nil =>
    exact Or.inr ⟨s, s', [], rfl, rfl, .refl _ s, .refl _ s', fun q hq => absurd hq
      List.not_mem_nil, h⟩
  | cons k ks ih =>
    obtain ⟨d, hd⟩ := hks k List.mem_cons_self
    have hown : Owns data g d := ⟨items, k, hitems, hd⟩
    have hitems' : s'.world.data.lookup g = some items := by
      rw [h.data, hs]
      exact hitems
    -- the record of the item reads what both states agree on
    have hrec : itemRecord env posts keys g k d s'.world (s'.world.records d)
        = itemRecord env posts keys g k d s.world (s.world.records d) := by
      rw [h.records d (Or.inl hown)]
      refine itemRecord_congr ?_ hwork k d _
      rw [hs]
      exact h
    rw [List.foldlM_cons, List.foldlM_cons,
      visitItem_eq env posts keys g hms (hs ▸ hitems) hd,
      visitItem_eq env posts keys g hms hitems' hd, hrec]
    cases itemRecord env posts keys g k d s.world (s.world.records d) with
    | error e => exact Or.inl ⟨e, rfl, rfl⟩
    | ok p =>
      have hv := visited_yieldsOf hown (hlt d hown).1 p.2 p.1
      have hv' := visited_yieldsOf hown (hlt d hown).2 p.2 p.1
      have hagree' : AgreeOn (Near env posts g data)
          (State.mk (s.world.set d p.2) (s.results ++ yieldsOf d (p.1.toList.map some))).world
          (State.mk (s'.world.set d p.2) (s'.results ++ yieldsOf d (p.1.toList.map some))).world :=
        h.set d p.2
      have hs' : (State.mk (s.world.set d p.2)
          (s.results ++ yieldsOf d (p.1.toList.map some))).world.data = data := hs
      rcases ih (fun k' hk' => hks k' (List.mem_cons_of_mem k hk')) hs' hagree' hlt with
        ⟨e, he, he'⟩ | ⟨t, t', l, ht, ht', hl, hl', hmem, hagree⟩
      · exact Or.inl ⟨e, he, he'⟩
      · refine Or.inr ⟨t, t', _, ht, ht', hv.trans hl, hv'.trans hl', fun q hq => ?_, hagree⟩
        rcases List.mem_append.mp hq with hq | hq
        · rcases (hv.mem q hq).1 with hq' | hq'
          · exact hq'
          · have hlt' := (hv.mem q hq).2
            exact absurd hlt' (not_lt_of_ge hq')
        · exact hmem q hq

/-! ### Visits of the whole dataset -/

/-- A step that works on one record makes of an empty record what it always makes of one. -/
theorem recordStep_empty {m : PostMap} (d d' : Ref) (w w' : World) :
    recordStep env g d' w' ∅ m = recordStep env g d w ∅ m := by
  cases m with
  | post_key_sub defn =>
    have hempty : ∀ (d : Ref) (w : World) (l : List (String × String)),
        l.foldlM (keySubRecord g d w) ∅ = .ok ∅ := by
      intro d w l
      induction l with
      | nil => rfl
      | cons p l ih => exact ih
    simp only [recordStep, hempty]
  | _ => rfl

/-- A record without the key that is to be removed. -/
def stripRecord (removeKey : Bool) (keyName : String) (r : Record) : Record :=
  if removeKey ∧ keyName ∈ r then r.erase keyName else r

/-- `collect`, for the yields of one record that is kept apart from the world. -/
def recordCollect (removeKey : Bool) (keyName : String) :
    List (Option String) → Record → Except Exn Record
  | [], r => pure r
  | none :: gs, r => if removeKey then throw (.typeError "argument of type 'NoneType' is not iterable")
      else recordCollect removeKey keyName gs r
  | some _ :: gs, r => recordCollect removeKey keyName gs (stripRecord removeKey keyName r)

theorem foldlM_collect_set (removeKey : Bool) (keyName : String) (d : Ref) (w : World)
    (gs : List (Option String)) (r : Record) (results : List (Option (String × Ref))) :
    (yieldsOf d gs).foldlM (collect removeKey keyName) ⟨w.set d r, results⟩
      = (recordCollect removeKey keyName gs r).map
        (fun r => ⟨w.set d r, results ++ yieldsOf d gs⟩) := by
  induction gs generalizing r results with
  | nil =>
    show Except.ok (State.mk (w.set d r) results) = Except.ok ⟨w.set d r, results ++ []⟩
    rw [List.append_nil]
  | cons y gs ih =>
    cases y with
    | none =>
      show (collect removeKey keyName ⟨w.set d r, results⟩ none >>= _) = _
      unfold collect recordCollect
      cases removeKey with
      | true => rfl
      | false =>
        show (yieldsOf d gs).foldlM (collect false keyName) ⟨w.set d r, results ++ [none]⟩ = _
        rw [ih, List.append_assoc]
        rfl
    | some thisG =>
      show (yieldsOf d gs).foldlM (collect removeKey keyName)
        ⟨if removeKey = true ∧ keyName ∈ (w.set d r).records d then
            (w.set d r).set d (((w.set d r).records d).erase keyName) else w.set d r,
          results ++ [some (thisG, d)]⟩ = _
      have hset : (if removeKey = true ∧ keyName ∈ (w.set d r).records d then
            (w.set d r).set d (((w.set d r).records d).erase keyName) else w.set d r)
          = w.set d (stripRecord removeKey keyName r) := by
        unfold stripRecord
        rw [World.set_records_self, World.set_set]
        split_ifs <;> rfl
      rw [hset, ih, List.append_assoc]
      rfl

/-- From `w` to `w'` new records `rs` were made, and yielded for group `g`. -/
structure Grown (g : String) (w w' : World) (ys : List (Option (String × Ref)))
    (rs : List Record) : Prop where
  data : w'.data = w.data
  next_le : w.next ≤ w'.next
  frame : ∀ r, r < w.next → w'.records r = w.records r
  refs : ∃ refs : List Ref, ys = refs.map (fun r => some (g, r)) ∧ refs.Nodup
    ∧ (∀ r ∈ refs, w.next ≤ r ∧ r < w'.next) ∧ refs.map w'.records = rs

theorem Grown.refl (g : String) (w : World) : Grown g w w [] [] :=
  ⟨rfl, le_refl _, fun _ _ => rfl, [], rfl, List.nodup_nil, fun _ h => absurd h List.not_mem_nil, rfl⟩

theorem Grown.append {w w₁ w₂ : World} {ys zs : List (Option (String × Ref))}
    {rs ss : List Record} (h : Grown g w w₁ ys rs) (h' : Grown g w₁ w₂ zs ss) :
    Grown g w w₂ (ys ++ zs) (rs ++ ss) := by
  obtain ⟨refs, hys, hnodup, hlt, hrs⟩ := h.refs
  obtain ⟨refs', hzs, hnodup', hlt', hss⟩ := h'.refs
  refine ⟨h'.data.trans h.data, le_trans h.next_le h'.next_le, fun r hr => ?_, refs ++ refs', ?_,
    ?_, fun r hr => ?_, ?_⟩
  · rw [h'.frame r (lt_of_lt_of_le hr h.next_le), h.frame r hr]
  · rw [hys, hzs, List.map_append]
  · refine List.nodup_append.mpr ⟨hnodup, hnodup', fun r hr r' hr' heq => ?_⟩
    rw [heq] at hr
    exact absurd (hlt r' hr).2 (not_lt_of_ge (hlt' r' hr').1)
  · rcases List.mem_append.mp hr with hr | hr
    · exact ⟨(hlt r hr).1, lt_of_lt_of_le (hlt r hr).2 h'.next_le⟩
    · exact ⟨le_trans h.next_le (hlt' r hr).1, (hlt' r hr).2⟩
  · rw [List.map_append, hss, ← hrs]
    congr 1
    exact List.map_congr_left (fun r hr => h'.frame r (hlt r hr).2)

theorem grown_alloc (g : String) (w : World) (r : Record) :
    Grown g w (w.alloc r).2 [some (g, (w.alloc r).1)] [r] := by
  refine ⟨rfl, Nat.le_succ _, fun ref href => ?_, [w.next], rfl, List.nodup_singleton _, ?_, ?_⟩
  · exact Function.update_of_ne (Nat.ne_of_lt href) _ _
  · intro ref href
    rw [List.mem_singleton.mp href]
    exact ⟨le_refl _, Nat.lt_succ_self _⟩
  · show [Function.update w.records w.next r w.next] = [r]
    rw [Function.update_self]

variable (env g) in
theorem grown_mergeRecords (s : String) {look : Ref → Record} {refs : List Ref} (this : Record)
    {w : World} (h : ∀ ref ∈ refs, ref < w.next ∧ w.records ref = look ref) :
    Grown g w (mergeRecords env g s refs this w).2 (mergeRecords env g s refs this w).1
      (mergedRecords env look s refs this) := by
  induction refs generalizing this w with
  | nil => exact .refl g w
  | cons ref refs ih =>
    unfold mergeRecords mergedRecords
    rw [(h ref List.mem_cons_self).2]
    refine (grown_alloc g w _).append (ih _ (fun ref' href' => ?_))
    obtain ⟨hlt, hlook⟩ := h ref' (List.mem_cons_of_mem ref href')
    refine ⟨Nat.lt_succ_of_lt hlt, ?_⟩
    rw [← hlook]
    exact Function.update_of_ne (Nat.ne_of_lt hlt) _ _

variable (env g) in
theorem grown_mergeGroups {base : World} {l : List (String × String)} {w : World}
    (hdata : w.data = base.data)
    (h : ∀ p ∈ l, ∀ r, Owns base.data p.1 r → r < w.next ∧ w.records r = base.records r) :
    Grown g w (mergeGroups env g l w).2 (mergeGroups env g l w).1
      (mergedGroups env base l) := by
  induction l generalizing w with
  | nil => exact .refl g w
  | cons p l ih =>
    obtain ⟨k, s⟩ := p
    unfold mergeGroups mergedGroups
    rw [hdata]
    cases hitems : base.data.lookup k with
    | none => exact ih hdata (fun p hp => h p (List.mem_cons_of_mem _ hp))
    | some items =>
      have hrefs : ∀ ref ∈ (env.order.order items.items).map Prod.snd,
          ref < w.next ∧ w.records ref = base.records ref := by
        intro ref href
        obtain ⟨q, hq, rfl⟩ := List.mem_map.mp href
        exact h (k, s) List.mem_cons_self q.2 ⟨items, q.1, hitems,
          Dict.mem_items.mp (env.order.mem_order.mp hq)⟩
      have hfirst := grown_mergeRecords env g s ∅ hrefs
      refine hfirst.append (ih (hfirst.data.trans hdata) (fun p hp r hr => ?_))
      obtain ⟨hlt, hrec⟩ := h p (List.mem_cons_of_mem _ hp) r hr
      exact ⟨lt_of_lt_of_le hlt hfirst.next_le, (hfirst.frame r hlt).trans hrec⟩

/-- The key is removed from one record of the world. -/
def World.strip (removeKey : Bool) (keyName : String) (w : World) (d : Ref) : World :=
  if removeKey ∧ keyName ∈ w.records d then w.set d ((w.records d).erase keyName) else w

theorem World.strip_eq (removeKey : Bool) (keyName : String) (w : World) (d : Ref) :
    w.strip removeKey keyName d = w.set d (stripRecord removeKey keyName (w.records d)) := by
  unfold World.strip stripRecord
  split_ifs
  · rfl
  · rw [World.set_same]

theorem foldlM_collect_refs (removeKey : Bool) (keyName g : String) (refs : List Ref) (w : World)
    (results : List (Option (String × Ref))) :
    (refs.map (fun r => some (g, r))).foldlM (collect removeKey keyName) ⟨w, results⟩
      = .ok ⟨refs.foldl (World.strip removeKey keyName) w,
        results ++ refs.map (fun r => some (g, r))⟩ := by
  induction refs generalizing w results with
  | nil =>
    show Except.ok (State.mk w results) = Except.ok ⟨w, results ++ []⟩
    rw [List.append_nil]
  | cons d refs ih =>
    show (refs.map (fun r => some (g, r))).foldlM (collect removeKey keyName)
      ⟨w.strip removeKey keyName d, results ++ [some (g, d)]⟩ = _
    rw [ih, List.append_assoc]
    rfl

/-- Each of the records loses its key once, and no other record changes. -/
theorem foldl_strip (removeKey : Bool) (keyName : String) {refs : List Ref} (h : refs.Nodup)
    (w : World) :
    (refs.foldl (World.strip removeKey keyName) w).data = w.data
      ∧ (refs.foldl (World.strip removeKey keyName) w).next = w.next
      ∧ ∀ r, (refs.foldl (World.strip removeKey keyName) w).records r
        = if r ∈ refs then stripRecord removeKey keyName (w.records r) else w.records r := by
  induction refs generalizing w with
  | nil => exact ⟨rfl, rfl, fun r => (if_neg List.not_mem_nil).symm⟩
  | cons d refs ih =>
    obtain ⟨hd, hrefs⟩ := List.nodup_cons.mp h
    obtain ⟨hdata, hnext, hrec⟩ := ih hrefs (w.strip removeKey keyName d)
    rw [World.strip_eq] at hdata hnext hrec
    rw [List.foldl_cons, World.strip_eq]
    refine ⟨hdata, hnext, fun r => ?_⟩
    rw [hrec, World.set_records]
    by_cases hr : r = d
    · subst hr
      rw [if_neg hd, if_pos rfl, if_pos List.mem_cons_self]
    · rw [if_neg hr]
      simp only [List.mem_cons, hr, false_or]

theorem mergedRecords_congr {look look' : Ref → Record} (s : String) {refs : List Ref}
    (h : ∀ ref ∈ refs, look' ref = look ref) (this : Record) :
    mergedRecords env look' s refs this = mergedRecords env look s refs this := by
  induction refs generalizing this with
  | nil => rfl
  | cons ref refs ih =>
    unfold mergedRecords
    rw [h ref List.mem_cons_self]
    show _ :: _ = _ :: _
    rw [ih (fun ref' href' => h ref' (List.mem_cons_of_mem ref href'))]

theorem mergedGroups_congr {P : Ref → Prop} {w w' : World} (h : AgreeOn P w w')
    {l : List (String × String)} (hl : ∀ p ∈ l, ∀ r, Owns w.data p.1 r → P r) :
    mergedGroups env w' l = mergedGroups env w l := by
  induction l with
  | nil => rfl
  | cons p l ih =>
    obtain ⟨k, s⟩ := p
    unfold mergedGroups
    rw [ih (fun p hp => hl p (List.mem_cons_of_mem _ hp)), h.data]
    cases hitems : w.data.lookup k with
    | none => rfl
    | some items =>
      simp only
      rw [mergedRecords_congr s (fun ref href => ?_)]
      obtain ⟨q, hq, rfl⟩ := List.mem_map.mp href
      exact h.records q.2 (hl (k, s) List.mem_cons_self q.2 ⟨items, q.1, hitems,
        Dict.mem_items.mp (env.order.mem_order.mp hq)⟩)

theorem mem_yieldsOf {d : Ref} {gs : List (Option String)} {q : String × Ref}
    (h : some q ∈ yieldsOf d gs) : q.2 = d := by
  obtain ⟨y, -, hy⟩ := List.mem_map.mp h
  cases y with
  | none => cases hy
  | some thisG =>
    cases hy
    rfl

/-- The world in which the record for a map that works on the whole dataset is made. -/
def World.reserved (w : World) : World := { w with next := w.next + 1 }

theorem World.alloc_empty (w : World) : w.alloc ∅ = (w.next, w.reserved.set w.next ∅) := rfl

/-- The last map, where it works on one record, is called with an empty one. -/
theorem visitDataset_perRecord {m : PostMap} (hm : PerRecord m) (s : State) :
    visitDataset env posts g m s = recordStep env g s.world.next s.world.reserved ∅ m >>= fun p =>
      (recordCollect (removeKeyOf posts g).1 (removeKeyOf posts g).2 p.1 p.2).map
        (fun r => ⟨s.world.reserved.set s.world.next r,
          s.results ++ yieldsOf s.world.next p.1⟩) := by
  unfold visitDataset
  rw [World.alloc_empty]
  simp only [step_set env hm]
  cases recordStep env g s.world.next s.world.reserved ∅ m with
  | error e => rfl
  | ok p => exact foldlM_collect_set _ _ _ _ _ _ _

theorem visited_perRecord (own : Ref → Prop) (s : State) (gs : List (Option String))
    (r : Record) :
    Visited own s ⟨s.world.reserved.set s.world.next r, s.results ++ yieldsOf s.world.next gs⟩
      (yieldsOf s.world.next gs) where
  data := rfl
  next_le := Nat.le_succ _
  frame := fun ref href _ => World.set_records_of_ne _ r (Nat.ne_of_lt href)
  results := rfl
  mem := by
    intro q hq
    rw [mem_yieldsOf hq]
    exact ⟨Or.inr (le_refl _), Nat.lt_succ_self _⟩

variable (env posts g) in
/-- `post_merge` makes new records, and yields each of them. -/
theorem visitDataset_merge {defn : Dict String String} (own : Ref → Prop) (s : State)
    (hlt : ∀ k r, k ∈ defn → Owns s.world.data k r → r < s.world.next) :
    ∃ (w : World) (refs : List Ref),
      visitDataset env posts g (.post_merge defn) s
          = .ok ⟨w, s.results ++ refs.map (fun r => some (g, r))⟩
        ∧ Visited own s ⟨w, s.results ++ refs.map (fun r => some (g, r))⟩
          (refs.map (fun r => some (g, r)))
        ∧ refs.map w.records = (mergedGroups env s.world (env.order.order defn.items)).map
          (stripRecord (removeKeyOf posts g).1 (removeKeyOf posts g).2)
        ∧ ∀ r, r < s.world.next → w.records r = s.world.records r := by
  have halloc := grown_alloc g s.world ∅
  have hbase : ∀ p ∈ env.order.order defn.items, ∀ r, Owns s.world.data p.1 r →
      r < (s.world.alloc ∅).2.next ∧ (s.world.alloc ∅).2.records r = s.world.records r := by
    intro p hp r hr
    have hmem : p.1 ∈ defn := Dict.mem_iff_lookup.mpr
      ⟨p.2, Dict.mem_items.mp (env.order.mem_order.mp hp)⟩
    exact ⟨Nat.lt_succ_of_lt (hlt p.1 r hmem hr), halloc.frame r (hlt p.1 r hmem hr)⟩
  have hdata₀ : (s.world.alloc ∅).2.data = s.world.data := rfl
  have hmerge := grown_mergeGroups env g hdata₀ hbase
  obtain ⟨refs, hys, hnodup, hrefs, hrs⟩ := hmerge.refs
  obtain ⟨hdata, hnext, hrec⟩ := foldl_strip (removeKeyOf posts g).1 (removeKeyOf posts g).2
    hnodup (mergeGroups env g (env.order.order defn.items) (s.world.alloc ∅).2).2
  -- the records made are new, so stripping them leaves those that were there
  have hframe : ∀ r, r < s.world.next →
      (refs.foldl (World.strip (removeKeyOf posts g).1 (removeKeyOf posts g).2)
        (mergeGroups env g (env.order.order defn.items) (s.world.alloc ∅).2).2).records r
      = s.world.records r := by
    intro r hr
    have hnew : r ∉ refs := fun hc =>
      absurd (lt_of_lt_of_le hr (Nat.le_succ _)) (not_lt_of_ge (hrefs r hc).1)
    rw [hrec, if_neg hnew, hmerge.frame r (Nat.lt_succ_of_lt hr), halloc.frame r hr]
  refine ⟨_, refs, ?_, ⟨?_, ?_, fun r hr _ => hframe r hr, rfl, ?_⟩, ?_, hframe⟩
  · unfold visitDataset
    rw [← foldlM_collect_refs, ← hys]
    rfl
  · exact hdata.trans hmerge.data
  · show s.world.next ≤ World.next _
    rw [hnext]
    exact le_trans (Nat.le_succ _) hmerge.next_le
  · intro q hq
    obtain ⟨r, hr, heq⟩ := List.mem_map.mp hq
    cases heq
    refine ⟨Or.inr (le_trans (Nat.le_succ _) (hrefs r hr).1), ?_⟩
    show r < World.next _
    rw [hnext]
    exact (hrefs r hr).2
  · rw [← hrs, List.map_map]
    refine List.map_congr_left (fun r hr => ?_)
    rw [hrec, if_pos hr]
    rfl

theorem values_refs (w : World) (refs : List Ref) :
    values w (refs.map (fun r => some (g, r)))
      = (refs.map w.records).map (fun r => some (g, r)) := by
  unfold values
  rw [List.map_map, List.map_map]
  rfl

theorem visitDataset_alike {m : PostMap} (hm : WithoutFunctions m) {P : Ref → Prop}
    (own : Ref → Prop) {s s' : State} (h : AgreeOn P s.world s'.world)
    (hP : ∀ r, P r → r < s.world.next ∧ r < s'.world.next)
    (hread : ∀ defn k r, m = .post_merge defn → k ∈ defn → Owns s.world.data k r → P r) :
    Alike P own s s' (visitDataset env posts g m s) (visitDataset env posts g m s') := by
  -- a map that works on one record is called with an empty one, which is new in both states
  have hper : PerRecord m → Alike P own s s' (visitDataset env posts g m s)
      (visitDataset env posts g m s') := by
    intro hm
    rw [visitDataset_perRecord hm, visitDataset_perRecord hm,
      recordStep_empty s.world.next s'.world.next s.world.reserved s'.world.reserved]
    cases recordStep env g s.world.next s.world.reserved ∅ m with
    | error e => exact rfl
    | ok p =>
      simp only [Except.ok_bind]
      cases recordCollect (removeKeyOf posts g).1 (removeKeyOf posts g).2 p.1 p.2 with
      | error e => exact rfl
      | ok r =>
        refine ⟨_, _, visited_perRecord own s p.1 r, visited_perRecord own s' p.1 r, ?_, h.data,
          fun ref href => ?_⟩
        · show values (s'.world.reserved.set s'.world.next r) (yieldsOf s'.world.next p.1)
            = values (s.world.reserved.set s.world.next r) (yieldsOf s.world.next p.1)
          unfold values yieldsOf
          rw [List.map_map, List.map_map]
          refine List.map_congr_left (fun y _ => ?_)
          cases y with
          | none => rfl
          | some thisG =>
            show some (thisG, (World.set _ _ _).records _) = some (thisG, (World.set _ _ _).records _)
            rw [World.set_records_self, World.set_records_self]
        · show (World.set _ _ _).records ref = (World.set _ _ _).records ref
          rw [World.set_records_of_ne _ _ (Nat.ne_of_lt (hP ref href).2),
            World.set_records_of_ne _ _ (Nat.ne_of_lt (hP ref href).1)]
          exact h.records ref href
  cases m with
  | post_merge defn =>
    have hnear := fun k r hk hr => hP r (hread defn k r rfl hk hr)
    obtain ⟨w, refs, hvisit, hv, hrecs, hkeep⟩ := visitDataset_merge env posts g own s
      (fun k r hk hr => (hnear k r hk hr).1)
    obtain ⟨w', refs', hvisit', hv', hrecs', hkeep'⟩ := visitDataset_merge env posts g own s'
      (fun k r hk hr => (hnear k r hk (h.data ▸ hr)).2)
    rw [hvisit, hvisit']
    refine ⟨_, _, hv, hv', ?_, ?_, fun r hr => ?_⟩
    · rw [values_refs, values_refs, hrecs, hrecs', mergedGroups_congr h (fun p hp r hr => ?_)]
      exact hread defn p.1 r rfl (Dict.mem_iff_lookup.mpr
        ⟨p.2, Dict.mem_items.mp (env.order.mem_order.mp hp)⟩) hr
    · exact (hv'.data.trans h.data).trans hv.data.symm
    · show w'.records r = w.records r
      rw [hkeep r (hP r hr).1, hkeep' r (hP r hr).2]
      exact h.records r hr
  | post_function defn => exact hm.elim
  | unknown name => exact hm.elim
  | _ => exact hper trivial

/-! ### Visits of a group -/

theorem perRecord_of_workOnDataset {ms : List PostMap} {b : Bool}
    (h : workOnDataset env ms b = .ok false) (hms : ∀ m ∈ ms, WithoutFunctions m) :
    b = false ∧ ∀ m ∈ ms, PerRecord m := by
  induction ms generalizing b with
  | nil =>
    have hb : b = false := Except.ok.inj h
    exact ⟨hb, fun m hm => absurd hm List.not_mem_nil⟩
  | cons m ms ih =>
    have hm := hms m List.mem_cons_self
    have hrest := fun m' hm' => hms m' (List.mem_cons_of_mem m hm')
    have hstep : ∀ b', workOnDataset env ms b' = .ok false → (b' = false → b = false) →
        PerRecord m → b = false ∧ ∀ m' ∈ m :: ms, PerRecord m' := by
      intro b' h' hb hper
      obtain ⟨hb', hall⟩ := ih h' hrest
      refine ⟨hb hb', fun m' hm' => ?_⟩
      rcases List.mem_cons.mp hm' with rfl | hm'
      · exact hper
      · exact hall m' hm'
    cases m with
    | post_merge defn => exact absurd (ih h hrest).1 (by simp)
    | post_function defn => exact hm.elim
    | unknown name => exact hm.elim
    | _ => exact hstep b h id trivial

theorem visitGroup_items (hwork : workOnDataset env (postMaps posts g) false = .ok false)
    (s : State) :
    visitGroup env posts keys s g = (s.world.data.lookup g).elim (.error (.keyError g))
      (fun items => ((env.order.order items.items).map Prod.fst).foldlM
        (visitItem env posts keys g) s) := by
  unfold visitGroup
  rw [hwork, Except.ok_bind]
  cases s.world.data.lookup g <;> rfl

theorem visitGroup_dataset (hwork : workOnDataset env (postMaps posts g) false = .ok true)
    {m : PostMap} (hlast : (postMaps posts g).getLast? = some m) (s : State) :
    visitGroup env posts keys s g = visitDataset env posts g m s := by
  unfold visitGroup
  rw [hwork, hlast]
  rfl

/-- **A visit depends on the records near its group**, and changes the records of the group
only. -/
theorem visitGroup_alike (hfun : ∀ m ∈ postMaps posts g, WithoutFunctions m) {s s' : State}
    (h : AgreeOn (Near env posts g s.world.data) s.world s'.world)
    (hlt : ∀ g r, Owns s.world.data g r → r < s.world.next ∧ r < s'.world.next) :
    Alike (Near env posts g s.world.data) (Owns s.world.data g) s s'
      (visitGroup env posts keys s g) (visitGroup env posts keys s' g) := by
  cases hwork : workOnDataset env (postMaps posts g) false with
  | error e =>
    unfold visitGroup
    rw [hwork]
    exact rfl
  | ok work =>
    cases work with
    | true =>
      cases hlast : (postMaps posts g).getLast? with
      | none =>
        rw [List.getLast?_eq_none_iff.mp hlast] at hwork
        cases hwork
      | some m =>
        have hm : m ∈ postMaps posts g := List.mem_of_getLast? hlast
        rw [visitGroup_dataset hwork hlast, visitGroup_dataset hwork hlast]
        refine visitDataset_alike (hfun m hm) _ h (fun r hr => ?_) (fun defn k r heq hk hr => ?_)
        · rcases hr with hr | ⟨h', -, hr⟩
          · exact hlt _ r hr
          · exact hlt h' r hr
        · exact Or.inr ⟨k, Or.inl ⟨defn, hwork, heq ▸ hlast, hk⟩, hr⟩
    | false =>
      have hper := (perRecord_of_workOnDataset hwork hfun).2
      rw [visitGroup_items hwork, visitGroup_items hwork, h.data]
      cases hitems : s.world.data.lookup g with
      | none => exact rfl
      | some items =>
        refine visitItems_alike hwork hper hitems (fun k hk => ?_) rfl h (fun r hr => hlt g r hr)
        obtain ⟨q, hq, rfl⟩ := List.mem_map.mp hk
        exact ⟨q.2, Dict.mem_items.mp (env.order.mem_order.mp hq)⟩

end Group

/-! ## All groups -/

/-- Each record belongs to one group, and has an address that was given out. -/
structure Separate (w : World) : Prop where
  inj : ∀ g g' r, Owns w.data g r → Owns w.data g' r → g = g'
  lt : ∀ g r, Owns w.data g r → r < w.next

/-- Both raise, or both have the same records in each group, in some order. -/
def SameResults : Except Exn State → Except Exn State → Prop
  | .ok s, .ok s' => ∀ g, (s.recordsOf g).Perm (s'.recordsOf g)
  | .error _, .error _ => True
  | _, _ => False

section Orders

variable (posts : Posts) (keys : Dict String String) (w : World)

/-- The records that group `g` reads of other groups are as they were collected. -/
def ReadsFresh (g : String) (s : State) : Prop :=
  ∀ h, h ≠ g → Reads env posts g h → ∀ r, Owns w.data h r → s.world.records r = w.records r

/-- The visits, one after the other. -/
def visitTurn (s : Except Exn State) (g : String) : Except Exn State :=
  s >>= fun s => visitGroup env posts keys s g

/-- Every group finds the records that it reads of other groups as they were collected. -/
def FreshOrder (visit : IterOrder) : Prop :=
  Run.Along (visitTurn env posts keys) (fun x g => ∀ s, x = .ok s → ReadsFresh env posts w g s)
    (.ok ⟨w, []⟩) (visit.order (w.data.items.map Prod.fst))

/-- The visit of a group leaves its records as they are: it works on the whole dataset, or each
record has its key already, keeps it, and no step changes it. -/
def Untouched (h : String) : Prop :=
  workOnDataset env (postMaps posts h) false = .ok true
    ∨ (removeKeyOf posts h).1 = false ∧ ∀ d, Owns w.data h d →
      (∀ key, keys.lookup h = some key → key ∈ w.records d)
        ∧ ∀ m ∈ postMaps posts h, ∀ ys w', step env h d w m = .ok (ys, w') →
          w'.records d = w.records d

/-- The groups that others read are not changed by their own visits. -/
def Independent : Prop :=
  ∀ g h, g ∈ w.data → h ≠ g → Reads env posts g h → Untouched env posts keys w h

/-- What holds while the groups `gs` are still to be visited: their records are as they were
collected, and the results do not refer to them. -/
structure Rest (gs : List String) (s : State) : Prop where
  data : s.world.data = w.data
  next_le : w.next ≤ s.world.next
  own : ∀ g ∈ gs, ∀ r, Owns w.data g r → s.world.records r = w.records r
  mem : ∀ q, some q ∈ s.results →
    q.2 < s.world.next ∧ (w.next ≤ q.2 ∨ ∃ g, g ∉ gs ∧ Owns w.data g q.2)

variable {env posts keys w}

theorem Rest.agreeOn {g : String} {gs : List String} {s : State} (h : Rest w (g :: gs) s)
    (hfresh : ReadsFresh env posts w g s) : AgreeOn (Near env posts g w.data) w s.world := by
  refine ⟨h.data, fun r hr => ?_⟩
  rcases hr with hr | ⟨h', hreads, hr⟩
  · exact h.own g List.mem_cons_self r hr
  · by_cases heq : h' = g
    · rw [heq] at hr
      exact h.own g List.mem_cons_self r hr
    · exact hfresh h' heq hreads r hr

/-- The next visit: what holds afterwards, and what it has appended. -/
theorem Rest.visited (hsep : Separate w) {g : String} {gs : List String}
    (hnodup : (g :: gs).Nodup) {s t : State} (h : Rest w (g :: gs) s)
    {l : List (Option (String × Ref))} (hv : Visited (Owns w.data g) s t l) :
    Rest w gs t ∧ values t.world t.results = values s.world s.results ++ values t.world l := by
  obtain ⟨hg, -⟩ := List.nodup_cons.mp hnodup
  refine ⟨⟨hv.data.trans h.data, le_trans h.next_le hv.next_le, fun g' hg' r hr => ?_,
    fun q hq => ?_⟩, ?_⟩
  · have hown : ¬ Owns w.data g r := fun hc => hg (hsep.inj g' g r hr hc ▸ hg')
    rw [hv.frame r (lt_of_lt_of_le (hsep.lt g' r hr) h.next_le) hown]
    exact h.own g' (List.mem_cons_of_mem g hg') r hr
  · rw [hv.results] at hq
    rcases List.mem_append.mp hq with hq | hq
    · refine ⟨lt_of_lt_of_le (h.mem q hq).1 hv.next_le, ?_⟩
      rcases (h.mem q hq).2 with hq' | ⟨g', hg', hq'⟩
      · exact Or.inl hq'
      · exact Or.inr ⟨g', fun hc => hg' (List.mem_cons_of_mem g hc), hq'⟩
    · refine ⟨(hv.mem q hq).2, ?_⟩
      rcases (hv.mem q hq).1 with hq' | hq'
      · exact Or.inr ⟨g, hg, hq'⟩
      · exact Or.inl (le_trans h.next_le hq')
  · rw [hv.results]
    unfold values
    rw [List.map_append]
    congr 1
    refine List.map_congr_left (fun y hy => ?_)
    cases y with
    | none => rfl
    | some q =>
      obtain ⟨hlt, hq⟩ := h.mem q hy
      have hown : ¬ Owns w.data g q.2 := by
        intro hc
        rcases hq with hq | ⟨g', hg', hq⟩
        · exact absurd (hsep.lt g q.2 hc) (not_lt_of_ge hq)
        · exact hg' (hsep.inj g' g q.2 hq hc ▸ List.mem_cons_self)
      show some (q.1, t.world.records q.2) = some (q.1, s.world.records q.2)
      rw [hv.frame q.2 hlt hown]

variable (env posts keys w)

/-- What the visit of a group appends to the results if it is the first one. -/
def contribution (g : String) : Except Exn (List (Option (String × Record))) :=
  (visitGroup env posts keys ⟨w, []⟩ g).map (fun t => values t.world t.results)

variable {env posts keys w}

/-- **A visit in a fresh order appends what it would append as the first one.** -/
theorem Rest.visitGroup (hsep : Separate w) (hfun : ∀ g, ∀ m ∈ postMaps posts g, WithoutFunctions m)
    {g : String} {gs : List String} (hnodup : (g :: gs).Nodup) {s : State}
    (h : Rest w (g :: gs) s) (hfresh : ReadsFresh env posts w g s) :
    (∃ e e', Driver.visitGroup env posts keys s g = .error e
        ∧ contribution env posts keys w g = .error e')
      ∨ ∃ t t₀ l, Driver.visitGroup env posts keys s g = .ok t
        ∧ Driver.visitGroup env posts keys ⟨w, []⟩ g = .ok t₀
        ∧ contribution env posts keys w g = .ok l ∧ Rest w gs t
        ∧ values t.world t.results = values s.world s.results ++ l
        ∧ AgreeOn (Near env posts g w.data) t₀.world t.world
        ∧ ∀ r, r < s.world.next → ¬ Owns w.data g r → t.world.records r = s.world.records r := by
  have halike : Alike (Near env posts g w.data) (Owns w.data g) ⟨w, []⟩ s
      (Driver.visitGroup env posts keys ⟨w, []⟩ g) (Driver.visitGroup env posts keys s g) :=
    visitGroup_alike (hfun g) (h.agreeOn hfresh)
      (fun g' r hr => ⟨hsep.lt g' r hr, lt_of_lt_of_le (hsep.lt g' r hr) h.next_le⟩)
  unfold contribution
  cases h₀ : Driver.visitGroup env posts keys ⟨w, []⟩ g with
  | error e =>
    cases h₁ : Driver.visitGroup env posts keys s g with
    | error e' => exact Or.inl ⟨e', e, rfl, rfl⟩
    | ok t =>
      rw [h₀, h₁] at halike
      exact halike.elim
  | ok t₀ =>
    cases h₁ : Driver.visitGroup env posts keys s g with
    | error e' =>
      rw [h₀, h₁] at halike
      exact halike.elim
    | ok t =>
      rw [h₀, h₁] at halike
      obtain ⟨l, l', hv₀, hv, hvalues, hagree⟩ := halike
      obtain ⟨hrest, hresults⟩ := h.visited hsep hnodup hv
      refine Or.inr ⟨t, t₀, values t₀.world l, rfl, rfl, ?_, hrest, ?_, hagree, hv.frame⟩
      · show Except.ok (values t₀.world t₀.results) = _
        rw [hv₀.results]
        rfl
      · rw [hresults, hvalues]

/-- All visits of a fresh order. -/
theorem Rest.foldlM (hsep : Separate w) (hfun : ∀ g, ∀ m ∈ postMaps posts g, WithoutFunctions m)
    {gs : List String} (hnodup : gs.Nodup) {s : State} (h : Rest w gs s)
    (hfresh : Run.Along (visitTurn env posts keys)
      (fun x g => ∀ s, x = .ok s → ReadsFresh env posts w g s) (.ok s) gs) :
    (∃ (t : State) (ls : List (List (Option (String × Record)))),
        gs.foldlM (Driver.visitGroup env posts keys) s = .ok t
        ∧ gs.map (contribution env posts keys w) = ls.map Except.ok
        ∧ values t.world t.results = values s.world s.results ++ ls.flatten)
      ∨ (∃ e, gs.foldlM (Driver.visitGroup env posts keys) s = .error e)
        ∧ ∃ g ∈ gs, ∃ e, contribution env posts keys w g = .error e := by
  induction gs generalizing s with
  | nil => exact Or.inl ⟨s, [], rfl, rfl, (List.append_nil _).symm⟩
  | cons g gs ih =>
    rw [List.foldlM_cons]
    rcases h.visitGroup hsep hfun hnodup (hfresh.1 s rfl) with
      ⟨e, e', he, he'⟩ | ⟨t, -, l, ht, -, hl, hrest, hvalues, -, -⟩
    · rw [he]
      exact Or.inr ⟨⟨e, rfl⟩, g, List.mem_cons_self, e', he'⟩
    · rw [ht]
      have hturn : visitTurn env posts keys (.ok s) g = .ok t := ht
      have hfresh' := hfresh.2
      rw [hturn] at hfresh'
      rcases ih (List.nodup_cons.mp hnodup).2 hrest hfresh' with
        ⟨u, ls, hu, hls, hvalues'⟩ | ⟨⟨e, he⟩, g', hg', he'⟩
      · refine Or.inl ⟨u, l :: ls, hu, ?_, ?_⟩
        · rw [List.map_cons, List.map_cons, hl, hls]
        · rw [hvalues', hvalues, List.append_assoc, List.flatten_cons]
      · exact Or.inr ⟨⟨e, he⟩, g', List.mem_cons_of_mem g hg', he'⟩

theorem recordsOf_eq (s : State) (g : String) :
    s.recordsOf g = (values s.world s.results).filterMap (fun y => match y with
      | some (thisG, r) => if thisG = g then some r else none
      | none => none) := by
  unfold State.recordsOf values
  rw [List.filterMap_map]
  refine List.filterMap_congr (fun y _ => ?_)
  cases y <;> rfl

/-! ### Groups that are not changed -/

theorem recordMaps_untouched {g : String} {d : Ref} {ms : List PostMap} {r : Record}
    (h : ∀ m ∈ ms, ∀ gs r', recordStep env g d w r m = .ok (gs, r') → r' = r)
    {cur : Option String} {p : Option String × Record}
    (hp : recordMaps env g d w ms cur r = .ok p) : p.2 = r := by
  induction ms generalizing cur with
  | nil =>
    cases hp
    rfl
  | cons m ms ih =>
    have ih' := fun cur (hp : recordMaps env g d w ms cur r = .ok p) =>
      ih (fun m' hm' => h m' (List.mem_cons_of_mem m hm')) hp
    cases cur with
    | none => exact ih' none hp
    | some thisG =>
      rw [recordMaps] at hp
      split_ifs at hp
      · exact ih' _ hp
      · obtain ⟨q, hq, hrest⟩ := Except.bind_eq_ok.mp hp
        obtain ⟨gs, r'⟩ := q
        have hr := h m List.mem_cons_self gs r' hq
        subst hr
        exact ih' _ hrest

theorem visitItem_untouched {g : String} (hper : ∀ m ∈ postMaps posts g, PerRecord m)
    (hremove : (removeKeyOf posts g).1 = false)
    (hstep : ∀ d, Owns w.data g d → (∀ key, keys.lookup g = some key → key ∈ w.records d)
      ∧ ∀ m ∈ postMaps posts g, ∀ ys w', step env g d w m = .ok (ys, w') →
        w'.records d = w.records d)
    {items : Dict String Ref} (hitems : w.data.lookup g = some items) {k : String} {d : Ref}
    (hd : items.lookup k = some d) {results : List (Option (String × Ref))} {t : State}
    (ht : visitItem env posts keys g ⟨w, results⟩ k = .ok t) : t.world = w := by
  obtain ⟨hkey, hmaps⟩ := hstep d ⟨items, k, hitems, hd⟩
  rw [visitItem_eq env posts keys g hper hitems hd] at ht
  cases hrec : itemRecord env posts keys g k d w (w.records d) with
  | error e =>
    rw [hrec] at ht
    cases ht
  | ok p =>
    rw [hrec] at ht
    cases ht
    suffices hp : p.2 = w.records d by
      show w.set d p.2 = w
      rw [hp, World.set_same]
    unfold itemRecord at hrec
    obtain ⟨key, hk, hrec⟩ := Except.bind_eq_ok.mp hrec
    cases hlookup : keys.lookup g with
    | none =>
      rw [hlookup] at hk
      cases hk
    | some key' =>
      rw [hlookup] at hk
      cases hk
      -- the record names its index already, so the visit does not write it there
      rw [if_pos (hkey key hlookup)] at hrec
      obtain ⟨q, hq, hfinish⟩ := Except.bind_eq_ok.mp hrec
      have hsame : q.2 = w.records d := by
        refine recordMaps_untouched (fun m hm gs r' hr => ?_) hq
        have hset := step_set env (hper m hm) g d w (w.records d)
        rw [World.set_same, hr] at hset
        have hw := hmaps m hm _ _ hset
        rwa [World.set_records_self] at hw
      obtain ⟨cur, r⟩ := q
      simp only at hsame
      subst hsame
      change recordFinish _ _ cur (w.records d) = .ok p at hfinish
      unfold recordFinish at hfinish
      cases cur with
      | none =>
        cases hfinish
        rfl
      | some thisG =>
        rw [hremove] at hfinish
        simp only [Bool.false_eq_true, if_false] at hfinish
        split_ifs at hfinish
        · cases hfinish
          rfl
        · cases hfinish
          rfl

theorem visitGroup_untouched (hsep : Separate w)
    (hfun : ∀ g, ∀ m ∈ postMaps posts g, WithoutFunctions m) {h : String}
    (hu : Untouched env posts keys w h) {t : State}
    (ht : Driver.visitGroup env posts keys ⟨w, []⟩ h = .ok t) {r : Ref} (hr : Owns w.data h r) :
    t.world.records r = w.records r := by
  cases hwork : workOnDataset env (postMaps posts h) false with
  | error e =>
    unfold Driver.visitGroup at ht
    rw [hwork] at ht
    cases ht
  | ok work =>
    cases work with
    | true =>
      cases hlast : (postMaps posts h).getLast? with
      | none =>
        rw [List.getLast?_eq_none_iff.mp hlast] at hwork
        cases hwork
      | some m =>
        rw [visitGroup_dataset hwork hlast] at ht
        have hlt : ∀ r, Near env posts h w.data r → r < w.next ∧ r < w.next := by
          intro r hr
          rcases hr with hr | ⟨h', -, hr⟩
          · exact ⟨hsep.lt _ r hr, hsep.lt _ r hr⟩
          · exact ⟨hsep.lt _ r hr, hsep.lt _ r hr⟩
        -- a visit that owns nothing changes no record that was there
        have hnear : ∀ defn k r, m = .post_merge defn → k ∈ defn →
            Owns w.data k r → Near env posts h w.data r :=
          fun defn k r heq hk hr => Or.inr ⟨k, Or.inl ⟨defn, hwork, heq ▸ hlast, hk⟩, hr⟩
        have halike : Alike _ (fun _ => False) ⟨w, []⟩ ⟨w, []⟩
            (Driver.visitDataset env posts h m ⟨w, []⟩) (Driver.visitDataset env posts h m ⟨w, []⟩) :=
          visitDataset_alike (hfun h m (List.mem_of_getLast? hlast)) (fun _ => False)
            ⟨rfl, fun _ _ => rfl⟩ hlt hnear
        rw [ht] at halike
        obtain ⟨l, -, hv, -⟩ := halike
        exact hv.frame r (hsep.lt h r hr) id
    | false =>
      have hper := (perRecord_of_workOnDataset hwork (hfun h)).2
      rcases hu with hu | ⟨hremove, hstep⟩
      · rw [hwork] at hu
        cases hu
      · obtain ⟨items, k₀, hitems, hk₀⟩ := hr
        rw [visitGroup_items hwork, hitems, Option.elim_some] at ht
        -- by induction on the indexes: each visit hands the world on as it was
        have hfold : ∀ (ks : List String) (results : List (Option (String × Ref))),
            (∀ k ∈ ks, ∃ d, items.lookup k = some d) →
            ks.foldlM (visitItem env posts keys h) ⟨w, results⟩ = .ok t → t.world = w := by
          intro ks
          induction ks with
          | nil =>
            intro results _ ht
            cases ht
            rfl
          | cons k ks ih =>
            intro results hks ht
            obtain ⟨d, hd⟩ := hks k List.mem_cons_self
            rw [List.foldlM_cons] at ht
            obtain ⟨⟨w₁, results₁⟩, hfirst, hrest⟩ := Except.bind_eq_ok.mp ht
            have hw := visitItem_untouched hper hremove hstep hitems hd hfirst
            simp only at hw
            subst hw
            exact ih results₁ (fun k' hk' => hks k' (List.mem_cons_of_mem k hk')) hrest
        rw [hfold _ [] (fun k hk => ?_) ht]
        obtain ⟨q, hq, rfl⟩ := List.mem_map.mp hk
        exact ⟨q.2, Dict.mem_items.mp (env.order.mem_order.mp hq)⟩

/-- Visits of groups of which those that others read are not changed find what they read as it
was collected. -/
theorem Independent.fresh (hsep : Separate w)
    (hfun : ∀ g, ∀ m ∈ postMaps posts g, WithoutFunctions m)
    (hind : Independent env posts keys w) {gs : List String} (hnodup : gs.Nodup)
    (hgs : ∀ g ∈ gs, g ∈ w.data) {s : State} (h : Rest w gs s)
    (hread : ∀ g h, g ∈ w.data → h ≠ g → Reads env posts g h → ∀ r, Owns w.data h r →
      s.world.records r = w.records r) :
    Run.Along (visitTurn env posts keys) (fun x g => ∀ s, x = .ok s → ReadsFresh env posts w g s)
      (.ok s) gs := by
  induction gs generalizing s with
  | nil => trivial
  | cons g gs ih =>
    have hg := hgs g List.mem_cons_self
    have hfresh : ReadsFresh env posts w g s := fun h hne hreads r hr => hread g h hg hne hreads r hr
    refine ⟨fun s' hs' => ?_, ?_⟩
    · cases hs'
      exact hfresh
    · show Run.Along _ _ (visitTurn env posts keys (.ok s) g) gs
      have hturn : visitTurn env posts keys (.ok s) g = Driver.visitGroup env posts keys s g := rfl
      rw [hturn]
      rcases h.visitGroup hsep hfun hnodup hfresh with
        ⟨e, -, he, -⟩ | ⟨t, t₀, -, ht, ht₀, -, hrest, -, hagree, hframe⟩
      · -- nothing is visited after an exception
        rw [he]
        have herror : ∀ l : List String, Run.Along (visitTurn env posts keys)
            (fun x g => ∀ s, x = .ok s → ReadsFresh env posts w g s) (.error e) l := by
          intro l
          induction l with
          | nil => trivial
          | cons g l ih => exact ⟨fun s hs => (by cases hs), ih⟩
        exact herror gs
      · rw [ht]
        refine ih (List.nodup_cons.mp hnodup).2 (fun g' hg' => hgs g' (List.mem_cons_of_mem g hg'))
          hrest (fun g' h' hg' hne hreads r hr => ?_)
        -- what is read belongs to the group just visited, or to one that it does not own
        by_cases heq : h' = g
        · subst heq
          rw [hagree.records r (Or.inl hr)]
          exact visitGroup_untouched hsep hfun (hind g' h' hg' hne hreads) ht₀ hr
        · have hown : ¬ Owns w.data g r := fun hc => heq (hsep.inj h' g r hr hc)
          rw [hframe r (lt_of_lt_of_le (hsep.lt h' r hr) h.next_le) hown]
          exact hread g' h' hg' hne hreads r hr

theorem rest_start (w : World) (gs : List String) : Rest w gs ⟨w, []⟩ where
  data := rfl
  next_le := le_refl _
  own := fun _ _ _ _ => rfl
  mem := fun _ h => absurd h List.not_mem_nil

theorem nodup_visit (visit : IterOrder) (w : World) :
    (visit.order (w.data.items.map Prod.fst)).Nodup := by
  rw [(visit.perm _).nodup_iff, Dict.items_map_fst]
  exact w.data.keys_nodup

/-- **Independence of the order of the groups**: the orders in which every group finds the
records that it reads as they were collected have the same results.  All orders are such
where the groups that others read are not changed by their own visits. -/
theorem postRemap_sameResults (hsep : Separate w)
    (hfun : ∀ g, ∀ m ∈ postMaps posts g, WithoutFunctions m) :
    (∀ visit visit', FreshOrder env posts keys w visit → FreshOrder env posts keys w visit' →
        SameResults (postRemap env posts visit keys w) (postRemap env posts visit' keys w))
      ∧ (Independent env posts keys w → ∀ visit, FreshOrder env posts keys w visit) := by
  constructor
  · intro visit visit' h h'
    -- both orders visit the same groups, and each group contributes the same in both
    have hperm : (visit.order (w.data.items.map Prod.fst)).Perm
        (visit'.order (w.data.items.map Prod.fst)) := (visit.perm _).trans (visit'.perm _).symm
    have hrun := (rest_start w _).foldlM hsep hfun (nodup_visit visit w) h
    have hrun' := (rest_start w _).foldlM hsep hfun (nodup_visit visit' w) h'
    unfold postRemap
    rcases hrun with ⟨t, ls, ht, hls, hvalues⟩ | ⟨⟨e, he⟩, g, hg, e', he'⟩
    · rcases hrun' with ⟨t', ls', ht', hls', hvalues'⟩ | ⟨-, g, hg, e, he⟩
      · rw [ht, ht']
        intro g
        rw [recordsOf_eq, recordsOf_eq, hvalues, hvalues']
        refine List.Perm.filterMap _ (List.Perm.append_left _ (List.Perm.flatten ?_))
        have hmap := hperm.map (contribution env posts keys w)
        rw [hls, hls'] at hmap
        have hfilter := hmap.filterMap Except.toOption
        have hid : ∀ l : List (List (Option (String × Record))),
            (l.map (Except.ok : _ → Except Exn _)).filterMap Except.toOption = l := by
          intro l
          rw [List.filterMap_map]
          exact List.filterMap_some
        rwa [hid, hid] at hfilter
      · -- a group that raises in one order raises in the other
        have hmem := List.mem_map_of_mem (f := contribution env posts keys w) (hperm.mem_iff.mpr hg)
        rw [hls, he] at hmem
        obtain ⟨l, -, hl⟩ := List.mem_map.mp hmem
        cases hl
    · rcases hrun' with ⟨t', ls', ht', hls', -⟩ | ⟨⟨e'', he''⟩, -⟩
      · have hmem := List.mem_map_of_mem (f := contribution env posts keys w) (hperm.mem_iff.mp hg)
        rw [hls', he'] at hmem
        obtain ⟨l, -, hl⟩ := List.mem_map.mp hmem
        cases hl
      · rw [he, he'']
        trivial
  · intro hind visit
    refine hind.fresh hsep hfun (nodup_visit visit w) (fun g hg => ?_) (rest_start w _)
      (fun _ _ _ _ _ _ _ => rfl)
    rw [visit.mem_order, Dict.items_map_fst] at hg
    exact AList.mem_keys.mpr hg

end Orders

/-! ## The fans of a load balancer -/

/-- A group that is merged into another one. -/
def fanPost : GroupPost where
  keyName := "hd_physical_index"

/-- The group that it is merged into. -/
def metaPost : GroupPost where
  keyName := "physical_index"
  post := some [.post_merge (Dict.ofList [("fan", "fan_")])]

def fanPosts : Posts where
  groups := Dict.ofList [("fan", fanPost), ("meta", metaPost)]

def fanKeys : Dict String String :=
  Dict.ofList [("fan", "hd_physical_index"), ("meta", "physical_index")]

/-- One fan with the given fields. -/
def fanWorld (r : Record) : World where
  records := fun _ => r
  next := 1
  data := Dict.ofList [("fan", Dict.ofList [("1", 0)]), ("meta", ∅)]

theorem owns_fanWorld {r : Record} {g : String} {d : Ref} (h : Owns (fanWorld r).data g d) :
    g = "fan" ∧ d = 0 := by
  obtain ⟨items, k, hitems, hd⟩ := h
  have hmem : (g, items) ∈ (fanWorld r).data.items := Dict.mem_items.mpr hitems
  have hgroups : (g, items) ∈ [("meta", (∅ : Dict String Ref)), ("fan", Dict.ofList [("1", 0)])] := hmem
  rcases List.mem_cons.mp hgroups with heq | hgroups
  · cases heq
    cases hd
  · cases List.mem_singleton.mp hgroups
    have hitem : (k, d) ∈ (Dict.ofList [("1", (0 : Ref))]).items := Dict.mem_items.mpr hd
    have hitem' : (k, d) ∈ [("1", (0 : Ref))] := hitem
    cases List.mem_singleton.mp hitem'
    exact ⟨rfl, rfl⟩

theorem separate_fanWorld (r : Record) : Separate (fanWorld r) := by
  refine ⟨fun g g' d h h' => ?_, fun g d h => ?_⟩
  · rw [(owns_fanWorld h).1, (owns_fanWorld h').1]
  · rw [(owns_fanWorld h).2]
    exact Nat.zero_lt_one

theorem postMaps_fanPosts (g : String) : postMaps fanPosts g = [.post_null]
    ∨ postMaps fanPosts g = [.post_merge (Dict.ofList [("fan", "fan_")])] := by
  unfold postMaps
  cases hg : fanPosts.groups.lookup g with
  | none => exact Or.inl rfl
  | some defn =>
    have hmem : (g, defn) ∈ fanPosts.groups.items := Dict.mem_items.mpr hg
    have hgroups : (g, defn) ∈ [("meta", metaPost), ("fan", fanPost)] := hmem
    rcases List.mem_cons.mp hgroups with heq | hgroups
    · cases heq
      exact Or.inr rfl
    · cases List.mem_singleton.mp hgroups
      exact Or.inl rfl

theorem withoutFunctions_fanPosts (g : String) :
    ∀ m ∈ postMaps fanPosts g, WithoutFunctions m := by
  intro m hm
  rcases postMaps_fanPosts g with h | h
  all_goals
    rw [h] at hm
    rw [List.mem_singleton.mp hm]
    trivial

theorem reads_fanPosts {g h : String} (hreads : Reads sampleEnv fanPosts g h) : h = "fan" := by
  rcases postMaps_fanPosts g with hg | hg
  all_goals
    rcases hreads with ⟨defn, -, hlast, hmem⟩ | ⟨defn, f, ref, -, hmem, -, -⟩
    all_goals rw [hg] at *
  · cases hlast
  · cases List.mem_singleton.mp hmem
  · cases hlast
    obtain ⟨v, hv⟩ := Dict.mem_iff_lookup.mp hmem
    have hitem : (h, v) ∈ [("fan", "fan_")] := Dict.mem_items.mpr hv
    cases List.mem_singleton.mp hitem
    rfl
  · cases List.mem_singleton.mp hmem

/-- Where the fan has its key already, the order of the two groups does not matter. -/
theorem postRemap_sameResults_fan :
    let r : Record := Dict.ofList [("fan_type", .str "fan"), ("hd_physical_index", .str "1")]
    SameResults (postRemap sampleEnv fanPosts IterOrder.stored fanKeys (fanWorld r))
      (postRemap sampleEnv fanPosts IterOrder.reversed fanKeys (fanWorld r)) := by
  intro r
  have hind : Independent sampleEnv fanPosts fanKeys (fanWorld r) := by
    intro g h _ _ hreads
    rw [reads_fanPosts hreads]
    refine Or.inr ⟨rfl, fun d hd => ⟨fun key hkey => ?_, fun m hm ys w' hstep => ?_⟩⟩
    · cases hkey
      exact Dict.mem_iff_lookup.mpr ⟨.str "1", rfl⟩
    · have hm' : m ∈ [PostMap.post_null] := hm
      rw [List.mem_singleton.mp hm'] at hstep
      cases hstep
      rfl
  obtain ⟨hsame, hall⟩ := postRemap_sameResults (separate_fanWorld r) withoutFunctions_fanPosts
  exact hsame _ _ (hall hind _) (hall hind _)

/-- The values of one field in the records of a group. -/
def fieldOf (x : Except Exn State) (g f : String) : List (Option Value) :=
  match x with
  | .ok s => (s.recordsOf g).map (fun r => r.lookup f)
  | .error _ => []

theorem SameResults.fieldOf {x x' : Except Exn State} (h : SameResults x x') (g f : String) :
    (fieldOf x g f).Perm (fieldOf x' g f) := by
  cases x with
  | error e =>
    cases x' with
    | error e' => exact List.Perm.refl _
    | ok s' => exact h.elim
  | ok s =>
    cases x' with
    | error e' => exact h.elim
    | ok s' => exact (h g).map _

/-- The key is inserted into the record of the fan when its group is visited, and merged into
the other group if that comes later. -/
theorem not_sameResults_fan :
    let r : Record := Dict.ofList [("fan_type", .str "fan")]
    Separate (fanWorld r) ∧ (∀ g, ∀ m ∈ postMaps fanPosts g, WithoutFunctions m)
      ∧ ¬ SameResults (postRemap sampleEnv fanPosts IterOrder.stored fanKeys (fanWorld r))
        (postRemap sampleEnv fanPosts IterOrder.reversed fanKeys (fanWorld r)) := by
  refine ⟨separate_fanWorld _, withoutFunctions_fanPosts, fun h => ?_⟩
  exact absurd (h.fieldOf "meta" "hd_physical_index") (by decide)

end Driver
