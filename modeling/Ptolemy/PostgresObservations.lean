/-
# What a batch has observed

An observation is a call of `save` that has found its key.  Beside the storer the
last observation of each key is kept (`observe`), and at the end of a batch each
observed key should have a live row with that datum and that time.

The rows that `save` works on come from the cache, which is filled again for each
context and not brought up to date in between: a key that has two cached rows is
not stored at all, and a cached row may no longer be what the table has.  A batch
loses nothing if no `save` is misled by its cache and no stamp deferred to the end
is for another time than the last observation (`stored_of_notLost`).
-/
import Ptolemy.PostgresLiveRows

namespace Postgres

variable {κ : Type} [DecidableEq κ] (cfg : Config κ)

/-! ## Observations -/

/-- What was observed of a key, when, and the table it is for. -/
structure Observation : Type where
  table : String
  time : Int
  data : Doc

/-- The last observation of each key in a batch. -/
abbrev Seen (κ : Type) : Type := κ → Option Observation

/-- What a call observes. -/
def see (s : Storer κ) (e : Event) (seen : Seen κ) : Seen κ :=
  match e with
  | .save time m ctx data => match saving cfg m ctx data s with
    | some w => Function.update seen w.key (some ⟨w.table, time, w.data⟩)
    | none => seen
  | _ => seen

/-- One call, and what is observed by it. -/
def observe (p : Storer κ × Seen κ) (e : Event) : Storer κ × Seen κ :=
  (step cfg p.1 e, see cfg p.1 e p.2)

theorem run_observe_fst (p : Storer κ × Seen κ) (es : List Event) :
    (Run.run (observe cfg) p es).1 = Run.run (step cfg) p.1 es := by
  induction es generalizing p with
  | nil => rfl
  | cons e es ih => exact ih (observe cfg p e)

/-- The key that a context has in the current batch. -/
def keyOf (s : Storer κ) (context : Doc) : Option κ :=
  (cfg.dictToKv s.contextFields s.contextFieldsMissingOk context).toOption

/-- The row stores the datum of an observation under its key. -/
structure Shows (s : Storer κ) (key : κ) (o : Observation) (r : Row) : Prop where
  mem : r ∈ s.db.rows
  isIn : s.db.isIn o.table r = true
  key_eq : keyOf cfg s r.context = some key
  data_same : Dict.Same r.data o.data

/-- **Nothing is lost**: each observed key has a live row with the datum last observed and the
time of that observation. -/
def Stored (s : Storer κ) (seen : Seen κ) : Prop :=
  ∀ key o, seen key = some o → ∃ r, Shows cfg s key o r ∧ r.updatedAt = o.time

/-- The cache does not mislead `save`: it has one row at most for the key; that is still the
live row of the key, and has its data if they equal the datum; and a context that is
written has the key it was looked up by. -/
structure Reliable (s : Storer κ) (w : Saving κ) : Prop where
  one : w.docs.length ≤ 1
  current : ∀ doc, w.docs = [doc] → ∃ r ∈ s.db.rows, s.db.isIn w.table r ∧ r.id = doc.id
    ∧ keyOf cfg s r.context = some w.key
    ∧ (different cfg.order doc.data w.data false = some false → Dict.Same r.data w.data)
  written : (∀ doc, w.docs = [doc] → different cfg.order doc.data w.data false ≠ some false) →
    keyOf cfg s w.context = some w.key

/-- The cache of a `save` is reliable, and the stamps that are replayed for the row of an
observed key are of the time of the observation. -/
def NotLost (p : Storer κ × Seen κ) : Event → Prop
  | .save _ m ctx data => ∀ w, saving cfg m ctx data p.1 = some w → Reliable cfg p.1 w
  | .postMsg o => ∀ d ∈ deferred o p.1.postMsgData, ∀ r ∈ p.1.db.rows,
      p.1.db.isIn d.1 r → r.id ∈ d.2.2 →
      ∀ key obs, keyOf cfg p.1 r.context = some key → p.2 key = some obs → d.2.1 = obs.time
  | _ => True

/-! ## The invariant of a batch -/

/-- The row is to be stamped at the end of the round. -/
def Touched (s : Storer κ) (r : Row) : Prop :=
  ∃ t, s.table = some t ∧ s.db.isIn t r ∧ r.id ∈ s.updateIds

/-- A stamp of a time is deferred for the row. -/
def Deferred (s : Storer κ) (r : Row) (time : Int) : Prop :=
  ∃ d ∈ deferred IterOrder.stored s.postMsgData, s.db.isIn d.1 r ∧ r.id ∈ d.2.2 ∧ d.2.1 = time

/-- In a round of time `τ`, the row of each observed key has the datum last observed, and has
its time as a stamp, or will have it. -/
structure During (τ : Int) (s : Storer κ) (seen : Seen κ) : Prop where
  wellFormed : s.db.WellFormed
  deleteIds : s.deleteIds = []
  table : ∃ t, s.table = some t
  stored : ∀ key o, seen key = some o → ∃ r, Shows cfg s key o r
    ∧ (r.updatedAt = o.time ∨ Deferred s r o.time ∨ (o.time = τ ∧ Touched s r))
  touched : ∀ r ∈ s.db.rows, Touched s r → ∀ key, keyOf cfg s r.context = some key →
    ∃ o, seen key = some o ∧ o.time = τ

/-- Between two rounds no row is about to be stamped. -/
structure Between (s : Storer κ) (seen : Seen κ) : Prop where
  wellFormed : s.db.WellFormed
  deleteIds : s.deleteIds = []
  updateIds : s.updateIds = []
  stored : ∀ key o, seen key = some o → ∃ r, Shows cfg s key o r
    ∧ (r.updatedAt = o.time ∨ Deferred s r o.time)

/-! ## Before the items -/

/-- The parts of a storer that `pre_bulk_process` leaves alone. -/
structure SameRound (s s' : Storer κ) : Prop where
  tables : SameTables s s'
  deleteIds : s'.deleteIds = s.deleteIds
  updateIds : s'.updateIds = s.updateIds
  contextFields : s'.contextFields = s.contextFields
  missingOk : s'.contextFieldsMissingOk = s.contextFieldsMissingOk

theorem sameRound_preBulkProcess (m : ItemMeta) (context : Context) (data : List Item)
    (s : Storer κ) : SameRound s (preBulkProcess cfg m context data s).2 := by
  refine ⟨sameTables_preBulkProcess cfg m context data s, ?_, ?_, ?_, ?_⟩
  all_goals
    unfold preBulkProcess
    simp only
    cases ensureTable cfg m.spec m.group context data with
    | error e => rfl
    | ok table =>
      simp only
      split
      · rfl
      · cases s.db.query cfg.order table [lookupContext m (flatten context)] <;> rfl

/-- A context that is accepted has a table. -/
theorem table_preBulkProcess {m : ItemMeta} {context : Context} {data : List Item} {s : Storer κ}
    (h : (preBulkProcess cfg m context data s).1 = .ok ()) :
    ∃ t, (preBulkProcess cfg m context data s).2.table = some t := by
  unfold preBulkProcess at h ⊢
  simp only at h ⊢
  cases ht : ensureTable cfg m.spec m.group context data with
  | error e =>
    rw [ht] at h
    cases h
  | ok table =>
    refine ⟨table, ?_⟩
    simp only
    split
    · rfl
    · cases s.db.query cfg.order table [lookupContext m (flatten context)] <;> rfl

theorem ids_foldl_prefetchTable (l : List (String × List Doc)) (s : Storer κ) :
    (l.foldl (prefetchTable cfg) s).deleteIds = s.deleteIds
      ∧ (l.foldl (prefetchTable cfg) s).updateIds = s.updateIds := by
  induction l generalizing s with
  | nil => exact ⟨rfl, rfl⟩
  | cons p l ih =>
    have hp : (prefetchTable cfg s p).deleteIds = s.deleteIds
        ∧ (prefetchTable cfg s p).updateIds = s.updateIds := by
      unfold prefetchTable
      cases s.db.query cfg.order p.1 p.2 with
      | error e => exact ⟨rfl, rfl⟩
      | ok rows =>
        simp only
        split <;> exact ⟨rfl, rfl⟩
    rw [List.foldl_cons, (ih _).1, (ih _).2]
    exact hp

/-- A batch starts with nothing to stamp or delete. -/
theorem ids_preMsgProcess (msg : List Message) (s : Storer κ) :
    (preMsgProcess cfg msg s).2.deleteIds = [] ∧ (preMsgProcess cfg msg s).2.updateIds = [] := by
  unfold preMsgProcess
  cases msg with
  | nil => exact ⟨rfl, rfl⟩
  | cons m ms =>
    simp only
    cases m._meta.bind Meta.spec with
    | none => exact ⟨rfl, rfl⟩
    | some spec =>
      cases m._meta.bind Meta.group with
      | none => exact ⟨rfl, rfl⟩
      | some group =>
        simp only
        cases cfg.preMsgProcessTables.lookup (_tableName spec group) with
        | none => exact ⟨rfl, rfl⟩
        | some p =>
          obtain ⟨fields, missingOk⟩ := p
          simp only
          cases prefetchParts cfg (_tableName spec group) fields (m :: ms) with
          | error e => exact ⟨rfl, rfl⟩
          | ok parts => exact ids_foldl_prefetchTable cfg _ _

theorem between_preMsgProcess {s : Storer κ} (hwf : s.db.WellFormed) (msg : List Message) :
    Between cfg (preMsgProcess cfg msg s).2 (fun _ => none) where
  wellFormed := by
    rw [preMsgProcess_db]
    exact hwf
  deleteIds := (ids_preMsgProcess cfg msg s).1
  updateIds := (ids_preMsgProcess cfg msg s).2
  stored := fun _ _ h => by cases h

omit [DecidableEq κ] in
/-- A storer that differs in what a round may change only. -/
theorem Shows.congr {s s' : Storer κ} (h : SameRound s s') {key : κ} {o : Observation} {r : Row}
    (hr : Shows cfg s key o r) : Shows cfg s' key o r where
  mem := by
    rw [h.tables.1]
    exact hr.mem
  isIn := by
    rw [h.tables.1]
    exact hr.isIn
  key_eq := by
    unfold keyOf
    rw [h.contextFields, h.missingOk]
    exact hr.key_eq
  data_same := hr.data_same

omit [DecidableEq κ] in
theorem Deferred.congr {s s' : Storer κ} (h : SameTables s s') {r : Row} {time : Int}
    (hr : Deferred s r time) : Deferred s' r time := by
  unfold Deferred
  rw [h.1, h.2]
  exact hr

theorem between_preBulkProcess {s : Storer κ} {seen : Seen κ} (h : Between cfg s seen)
    (m : ItemMeta) (context : Context) (data : List Item) :
    Between cfg (preBulkProcess cfg m context data s).2 seen where
  wellFormed := by
    rw [preBulkProcess_db]
    exact h.wellFormed
  deleteIds := (sameRound_preBulkProcess cfg m context data s).deleteIds.trans h.deleteIds
  updateIds := (sameRound_preBulkProcess cfg m context data s).updateIds.trans h.updateIds
  stored := by
    have hsame := sameRound_preBulkProcess cfg m context data s
    intro key o ho
    obtain ⟨r, hr, hstamp⟩ := h.stored key o ho
    refine ⟨r, hr.congr cfg hsame, ?_⟩
    rcases hstamp with hstamp | hstamp
    · exact Or.inl hstamp
    · exact Or.inr (hstamp.congr hsame.tables)

omit [DecidableEq κ] in
/-- A round that has a table starts with nothing to stamp. -/
theorem Between.during {s : Storer κ} {seen : Seen κ} (h : Between cfg s seen)
    (ht : ∃ t, s.table = some t) (τ : Int) : During cfg τ s seen where
  wellFormed := h.wellFormed
  deleteIds := h.deleteIds
  table := ht
  stored := by
    intro key o ho
    obtain ⟨r, hr, hstamp⟩ := h.stored key o ho
    refine ⟨r, hr, ?_⟩
    rcases hstamp with hstamp | hstamp
    · exact Or.inl hstamp
    · exact Or.inr (Or.inl hstamp)
  touched := by
    rintro r hr ⟨t, -, -, hid⟩
    rw [h.updateIds] at hid
    exact absurd hid List.not_mem_nil

/-! ## One item -/

omit [DecidableEq κ] in
/-- **What `save` does to the storer** when its cache has one row at most for the key. -/
theorem store_plain (time : Int) {m : ItemMeta} (hm : Plain m.flags) {w : Saving κ}
    (hone : w.docs.length ≤ 1) (s : Storer κ) :
    (w.docs = [] ∧ store cfg time m w.table w.docs w.context w.data s
        = { s with db := s.db.insert w.table time w.context w.data })
      ∨ ∃ doc, w.docs = [doc]
        ∧ ((different cfg.order doc.data w.data false = some false
            ∧ store cfg time m w.table w.docs w.context w.data s
              = { s with updateIds := s.updateIds ++ [doc.id] })
          ∨ (different cfg.order doc.data w.data false ≠ some false
            ∧ ∃ db, db.schema = s.db.schema
              ∧ db.rows = (s.db.updateItem w.table doc.id time w.context w.data true).rows
              ∧ store cfg time m w.table w.docs w.context w.data s = { s with db := db })) := by
  unfold store
  rcases hdocs : w.docs with _ | ⟨doc, _ | ⟨doc', docs⟩⟩
  · exact Or.inl ⟨rfl, rfl⟩
  · refine Or.inr ⟨doc, rfl, ?_⟩
    simp only [changeOf_plain cfg hm]
    rcases hd : different cfg.order doc.data w.data false with _ | _ | _
    · exact Or.inr ⟨by simp, s.db.updateItem w.table doc.id time w.context w.data true, rfl, rfl, rfl⟩
    · exact Or.inl ⟨rfl, rfl⟩
    · exact Or.inr ⟨by simp, (s.db.archive (_tableName m.spec m.group ++ historyCollectionAppend)
        doc time w.context w.data).updateItem w.table doc.id time w.context w.data true,
        rfl, rfl, rfl⟩
  · rw [hdocs] at hone
    simp at hone

theorem table_of_saving {m : ItemMeta} {ctx : Context} {data : Item} {s : Storer κ} {w : Saving κ}
    (hw : saving cfg m ctx data s = some w) : s.table = some w.table := by
  unfold saving at hw
  split at hw
  · rename_i htable
    cases hw
    exact htable
  · cases hw

/-- The storer after an observation of the key of `w` in a round of time `τ`. -/
def seeing (τ : Int) (w : Saving κ) (seen : Seen κ) : Seen κ :=
  Function.update seen w.key (some ⟨w.table, τ, w.data⟩)

theorem seeing_self (τ : Int) (w : Saving κ) (seen : Seen κ) :
    seeing τ w seen w.key = some ⟨w.table, τ, w.data⟩ := Function.update_self _ _ _

theorem seeing_of_ne (τ : Int) {w : Saving κ} (seen : Seen κ) {key : κ} (h : key ≠ w.key) :
    seeing τ w seen key = seen key := Function.update_of_ne h _ _

section Item

variable {τ : Int} {s : Storer κ} {seen : Seen κ} {w : Saving κ}

/-- An item whose key has no row. -/
theorem During.insert (h : During cfg τ s seen) (hr : Reliable cfg s w) (hdocs : w.docs = []) :
    During cfg τ { s with db := s.db.insert w.table τ w.context w.data } (seeing τ w seen) where
  wellFormed := h.wellFormed.insert _ _ _ _
  deleteIds := h.deleteIds
  table := h.table
  stored := by
    intro key o ho
    -- the new row shows the item; every other key is shown as before
    by_cases hkey : key = w.key
    · subst hkey
      rw [seeing_self] at ho
      cases ho
      refine ⟨⟨s.db.serial (s.db.schema.parent w.table), τ, τ, w.context, w.data, w.table⟩,
        ⟨List.mem_append_right _ List.mem_cons_self, ?_, ?_, .refl _⟩, Or.inl rfl⟩
      · show (decide (w.table = w.table) || _) = true
        rw [decide_eq_true rfl, Bool.true_or]
      · exact hr.written (fun doc hdoc => by rw [hdocs] at hdoc; cases hdoc)
    · rw [seeing_of_ne τ seen hkey] at ho
      obtain ⟨r, hshow, hstamp⟩ := h.stored key o ho
      exact ⟨r, ⟨List.mem_append_left _ hshow.mem, hshow.isIn, hshow.key_eq, hshow.data_same⟩,
        hstamp⟩
  touched := by
    intro r hmem htouch key hkey
    by_cases hk : key = w.key
    · subst hk
      exact ⟨_, seeing_self τ w seen, rfl⟩
    · rw [seeing_of_ne τ seen hk]
      rcases List.mem_append.mp hmem with hmem | hmem
      · exact h.touched r hmem htouch key hkey
      · rw [List.mem_singleton.mp hmem] at hkey
        have hw := hr.written (fun doc hdoc => by rw [hdocs] at hdoc; cases hdoc)
        have heq : some w.key = some key := hw.symm.trans hkey
        exact absurd (Option.some.inj heq).symm hk

/-- An item that is equal to the cached row of its key. -/
theorem During.touch (h : During cfg τ s seen) (hr : Reliable cfg s w)
    (ht : s.table = some w.table) {doc : Row} (hdocs : w.docs = [doc])
    (hd : different cfg.order doc.data w.data false = some false) :
    During cfg τ { s with updateIds := s.updateIds ++ [doc.id] } (seeing τ w seen) := by
  obtain ⟨r₀, hr₀, hin, hid, hkey₀, hsame⟩ := hr.current doc hdocs
  refine ⟨h.wellFormed, h.deleteIds, h.table, ?_, ?_⟩
  · intro key o ho
    by_cases hkey : key = w.key
    · subst hkey
      rw [seeing_self] at ho
      cases ho
      refine ⟨r₀, ⟨hr₀, hin, hkey₀, hsame hd⟩, Or.inr (Or.inr ⟨rfl, w.table, ht, hin, ?_⟩)⟩
      show r₀.id ∈ s.updateIds ++ [doc.id]
      rw [hid]
      exact List.mem_append_right _ List.mem_cons_self
    · rw [seeing_of_ne τ seen hkey] at ho
      obtain ⟨r, hshow, hstamp⟩ := h.stored key o ho
      refine ⟨r, ⟨hshow.mem, hshow.isIn, hshow.key_eq, hshow.data_same⟩, ?_⟩
      rcases hstamp with hstamp | hstamp | ⟨hτ, t, htable, hit, hids⟩
      · exact Or.inl hstamp
      · exact Or.inr (Or.inl hstamp)
      · exact Or.inr (Or.inr ⟨hτ, t, htable, hit, List.mem_append_left _ hids⟩)
  · rintro r hmem ⟨t, htable, hit, hids⟩ key hkey
    by_cases hk : key = w.key
    · subst hk
      exact ⟨_, seeing_self τ w seen, rfl⟩
    · rw [seeing_of_ne τ seen hk]
      rcases List.mem_append.mp hids with hids | hids
      · exact h.touched r hmem ⟨t, htable, hit, hids⟩ key hkey
      · -- the row is the one of the key of the item
        rw [List.mem_singleton] at hids
        have htw : t = w.table := Option.some.inj (htable.symm.trans ht)
        rw [htw] at hit
        have heq := h.wellFormed.eq_of_isIn hmem hr₀ hit hin (hids.trans hid.symm)
        rw [heq] at hkey
        have hkeys : some w.key = some key := hkey₀.symm.trans hkey
        exact absurd (Option.some.inj hkeys).symm hk

/-- An item that is written over the row of its key. -/
theorem During.overwrite (h : During cfg τ s seen) (hr : Reliable cfg s w) {doc : Row}
    (hdocs : w.docs = [doc]) (hd : different cfg.order doc.data w.data false ≠ some false)
    {db : Db} (hschema : db.schema = s.db.schema) (hwf : db.WellFormed)
    (hrows : db.rows = (s.db.updateItem w.table doc.id τ w.context w.data true).rows) :
    During cfg τ { s with db := db } (seeing τ w seen) := by
  obtain ⟨r₀, hr₀, hin, hid, hkey₀, -⟩ := hr.current doc hdocs
  have hwritten : keyOf cfg s w.context = some w.key := hr.written (fun doc' hdoc' => by
    rw [hdocs] at hdoc'
    cases hdoc'
    exact hd)
  set f : Row → Row := fun r =>
    if s.db.isIn w.table r ∧ r.id = doc.id then r.write τ w.context w.data true else r with hf
  have hrows' : db.rows = s.db.rows.map f := hrows
  have hisIn : ∀ t r, db.isIn t r = s.db.isIn t r := by
    intro t r
    unfold Db.isIn
    rw [hschema]
  -- rows of other keys are not the one written over
  have hother : ∀ r ∈ s.db.rows, ∀ key, key ≠ w.key → keyOf cfg s r.context = some key →
      f r = r := by
    intro r hmem key hne hkey
    rw [hf]
    refine if_neg (fun hit => ?_)
    have heq := h.wellFormed.eq_of_isIn hmem hr₀ hit.1 hin (hit.2.trans hid.symm)
    rw [heq, hkey₀] at hkey
    exact hne (Option.some.inj hkey).symm
  refine ⟨hwf, h.deleteIds, h.table, ?_, ?_⟩
  · intro key o ho
    by_cases hkey : key = w.key
    · subst hkey
      rw [seeing_self] at ho
      cases ho
      refine ⟨r₀.write τ w.context w.data true, ⟨?_, ?_, hwritten, .refl _⟩, Or.inl rfl⟩
      · show _ ∈ db.rows
        rw [hrows', List.mem_map]
        exact ⟨r₀, hr₀, if_pos ⟨hin, hid⟩⟩
      · show db.isIn w.table _ = true
        rw [hisIn]
        exact hin
    · rw [seeing_of_ne τ seen hkey] at ho
      obtain ⟨r, hshow, hstamp⟩ := h.stored key o ho
      refine ⟨r, ⟨?_, ?_, hshow.key_eq, hshow.data_same⟩, ?_⟩
      · show r ∈ db.rows
        rw [hrows', List.mem_map]
        exact ⟨r, hshow.mem, hother r hshow.mem key hkey hshow.key_eq⟩
      · show db.isIn o.table r = true
        rw [hisIn]
        exact hshow.isIn
      · unfold Deferred Touched at *
        simp only [hisIn]
        exact hstamp
  · rintro r' hmem ⟨t, htable, hit, hids⟩ key hkey
    by_cases hk : key = w.key
    · subst hk
      exact ⟨_, seeing_self τ w seen, rfl⟩
    · rw [seeing_of_ne τ seen hk]
      change r' ∈ db.rows at hmem
      rw [hrows'] at hmem
      obtain ⟨r, hr₁, rfl⟩ := List.mem_map.mp hmem
      change db.isIn t (f r) = true at hit
      rw [hisIn] at hit
      by_cases hit' : s.db.isIn w.table r ∧ r.id = doc.id
      · have hfr : f r = r.write τ w.context w.data true := if_pos hit'
        rw [hfr] at hkey
        have hkeys : some w.key = some key := hwritten.symm.trans hkey
        exact absurd (Option.some.inj hkeys).symm hk
      · have hfr : f r = r := if_neg hit'
        rw [hfr] at hit hids hkey
        exact h.touched r hr₁ ⟨t, htable, hit, hids⟩ key hkey

end Item

/-- One `save` of a round. -/
theorem During.save {τ : Int} {s : Storer κ} {seen : Seen κ} (h : During cfg τ s seen)
    {m : ItemMeta} (hm : Plain m.flags) (ctx : Context) (data : Item)
    (hlost : NotLost cfg (s, seen) (.save τ m ctx data)) :
    During cfg τ (step cfg s (.save τ m ctx data)) (see cfg s (.save τ m ctx data) seen) := by
  have hstep : step cfg s (.save τ m ctx data) = (Postgres.save cfg τ m ctx data s).2 := rfl
  have hsee : see cfg s (.save τ m ctx data) seen = match saving cfg m ctx data s with
    | some w => seeing τ w seen
    | none => seen := rfl
  rw [hstep, save_eq, hsee]
  cases hw : saving cfg m ctx data s with
  | none => exact h
  | some w =>
    have hr : Reliable cfg s w := hlost w hw
    have hwf := store_wellFormed cfg τ m w.table w.docs w.context w.data h.wellFormed
    simp only
    rcases store_plain cfg τ hm hr.one s with
      ⟨hdocs, heq⟩ | ⟨doc, hdocs, ⟨hd, heq⟩ | ⟨hd, db, hschema, hrows, heq⟩⟩
    · rw [heq]
      exact h.insert cfg hr hdocs
    · rw [heq]
      exact h.touch cfg hr (table_of_saving cfg hw) hdocs hd
    · rw [heq] at hwf ⊢
      exact h.overwrite cfg hr hdocs hd hschema hwf hrows

/-! ## The end of a round -/

/-- What is deferred stays so. -/
theorem deferred_deferIds_of_mem (table : String) (time : Int) (ids : List Nat)
    {d : Dict String (Dict Int (List Nat))} {p : String × Int × List Nat}
    (hp : p ∈ deferred IterOrder.stored d) :
    ∃ q ∈ deferred IterOrder.stored (deferIds table time ids d),
      q.1 = p.1 ∧ q.2.1 = p.2.1 ∧ ∀ i ∈ p.2.2, i ∈ q.2.2 := by
  obtain ⟨times, htable, htime⟩ := mem_deferred.mp hp
  by_cases ht : p.1 = table
  · have hnew : (deferIds table time ids d).lookup p.1
        = some (times.insert time ((times.lookup time).getD [] ++ ids)) := by
      unfold deferIds
      rw [Dict.lookup_insert_eq, if_pos ht, ← ht, htable]
      rfl
    by_cases hq : p.2.1 = time
    · refine ⟨(p.1, p.2.1, p.2.2 ++ ids), mem_deferred.mpr ⟨_, hnew, ?_⟩, rfl, rfl,
        fun i hi => List.mem_append_left _ hi⟩
      rw [Dict.lookup_insert_eq, if_pos hq, ← hq, htime]
      rfl
    · refine ⟨p, mem_deferred.mpr ⟨_, hnew, ?_⟩, rfl, rfl, fun i hi => hi⟩
      rw [Dict.lookup_insert_eq, if_neg hq]
      exact htime
  · refine ⟨p, mem_deferred.mpr ⟨times, ?_, htime⟩, rfl, rfl, fun i hi => hi⟩
    unfold deferIds
    rw [Dict.lookup_insert_eq, if_neg ht]
    exact htable

/-- What is deferred now. -/
theorem deferred_deferIds_new (table : String) (time : Int) (ids : List Nat)
    (d : Dict String (Dict Int (List Nat))) :
    ∃ q ∈ deferred IterOrder.stored (deferIds table time ids d),
      q.1 = table ∧ q.2.1 = time ∧ ∀ i ∈ ids, i ∈ q.2.2 := by
  refine ⟨(table, time, (((d.lookup table).getD ∅).lookup time).getD [] ++ ids),
    mem_deferred.mpr ⟨((d.lookup table).getD ∅).insert time
      ((((d.lookup table).getD ∅).lookup time).getD [] ++ ids), ?_, ?_⟩, rfl, rfl,
    fun i hi => List.mem_append_right _ hi⟩
  · unfold deferIds
    rw [Dict.lookup_insert_eq, if_pos rfl]
  · rw [Dict.lookup_insert_eq, if_pos rfl]

/-- **The end of a round** stamps what was touched, or defers that. -/
theorem During.postBulk {τ : Int} {s : Storer κ} {seen : Seen κ} (h : During cfg τ s seen) :
    Between cfg (step cfg s (.postBulk τ)) seen := by
  have hwf : (step cfg s (.postBulk τ)).db.WellFormed := step_wellFormed cfg s _ h.wellFormed
  obtain ⟨table, htable⟩ := h.table
  change Between cfg (postBulkProcess τ s).2 seen
  change (postBulkProcess τ s).2.db.WellFormed at hwf
  unfold postBulkProcess at hwf ⊢
  rw [htable] at hwf ⊢
  split_ifs at hwf ⊢ with hids hpost
  · -- nothing was touched
    have hnil : s.updateIds = [] := List.isEmpty_iff.mp hids
    refine ⟨h.wellFormed, h.deleteIds, hnil, fun key o ho => ?_⟩
    obtain ⟨r, hshow, hstamp⟩ := h.stored key o ho
    refine ⟨r, ⟨hshow.mem, hshow.isIn, hshow.key_eq, hshow.data_same⟩, ?_⟩
    rcases hstamp with hstamp | hstamp | ⟨-, t, -, -, hid⟩
    · exact Or.inl hstamp
    · exact Or.inr hstamp
    · rw [hnil] at hid
      exact absurd hid List.not_mem_nil
  · refine ⟨h.wellFormed, h.deleteIds, rfl, fun key o ho => ?_⟩
    obtain ⟨r, hshow, hstamp⟩ := h.stored key o ho
    refine ⟨r, ⟨hshow.mem, hshow.isIn, hshow.key_eq, hshow.data_same⟩, ?_⟩
    rcases hstamp with hstamp | ⟨d, hd, hin, hid, ht⟩ | ⟨hτ, t, ht, hin, hid⟩
    · exact Or.inl hstamp
    · obtain ⟨q, hq, hq₁, hq₂, hsub⟩ := deferred_deferIds_of_mem table τ s.updateIds hd
      exact Or.inr ⟨q, hq, hq₁ ▸ hin, hsub _ hid, hq₂.trans ht⟩
    · obtain ⟨q, hq, hq₁, hq₂, hsub⟩ :=
        deferred_deferIds_new table τ s.updateIds s.postMsgData
      have htt : t = table := Option.some.inj (ht.symm.trans htable)
      exact Or.inr ⟨q, hq, (hq₁.trans htt.symm) ▸ hin, hsub _ hid, hq₂.trans hτ.symm⟩
  · refine ⟨hwf, h.deleteIds, rfl, fun key o ho => ?_⟩
    obtain ⟨r, hshow, hstamp⟩ := h.stored key o ho
    by_cases hit : s.db.isIn table r ∧ r.id ∈ s.updateIds
    · obtain ⟨o', ho', hτ⟩ := h.touched r hshow.mem ⟨table, htable, hit.1, hit.2⟩ key hshow.key_eq
      have hoo : o' = o := Option.some.inj (ho'.symm.trans ho)
      refine ⟨{ r with updatedAt := τ }, ⟨?_, hshow.isIn, hshow.key_eq, hshow.data_same⟩,
        Or.inl (by rw [← hoo, hτ])⟩
      exact List.mem_map.mpr ⟨r, hshow.mem, if_pos hit⟩
    · refine ⟨r, ⟨List.mem_map.mpr ⟨r, hshow.mem, if_neg hit⟩, hshow.isIn, hshow.key_eq,
        hshow.data_same⟩, ?_⟩
      rcases hstamp with hstamp | hstamp | ⟨-, t, ht, hin, hid⟩
      · exact Or.inl hstamp
      · exact Or.inr hstamp
      · have htt : t = table := Option.some.inj (ht.symm.trans htable)
        exact absurd ⟨htt ▸ hin, hid⟩ hit

/-! ## The end of a batch -/

/-- A row whose replayed stamps are all of one time has that time in the end. -/
theorem lastStamp_eq {db : Db} {l : List (String × Int × List Nat)} {r : Row} {t : Int}
    (hall : ∀ p ∈ l, db.isIn p.1 r → r.id ∈ p.2.2 → p.2.1 = t)
    (hex : r.updatedAt = t ∨ ∃ p ∈ l, db.isIn p.1 r ∧ r.id ∈ p.2.2) : lastStamp db l r = t := by
  induction l using List.reverseRecOn with
  | nil =>
    rcases hex with hex | ⟨p, hp, -⟩
    · exact hex
    · exact absurd hp List.not_mem_nil
  | append_singleton l p ih =>
    unfold lastStamp
    rw [List.foldl_append, List.foldl_cons, List.foldl_nil]
    split_ifs with hit
    · exact hall p (List.mem_append_right _ List.mem_cons_self) hit.1 hit.2
    · refine ih (fun q hq => hall q (List.mem_append_left _ hq)) ?_
      rcases hex with hex | ⟨q, hq, hhit⟩
      · exact Or.inl hex
      · rcases List.mem_append.mp hq with hq | hq
        · exact Or.inr ⟨q, hq, hhit⟩
        · rw [List.mem_singleton.mp hq] at hhit
          exact absurd hhit hit

/-- **The end of a batch** replays the deferred stamps. -/
theorem Between.postMsg {s : Storer κ} {seen : Seen κ} (h : Between cfg s seen) {o : IterOrder}
    (hlost : NotLost cfg (s, seen) (.postMsg o)) :
    Stored cfg (step cfg s (.postMsg o)) seen := by
  intro key obs hobs
  obtain ⟨r, hshow, hstamp⟩ := h.stored key obs hobs
  have hafter : afterDelete s = s.db := by
    unfold afterDelete
    rw [h.deleteIds]
    rfl
  have hdb : (step cfg s (.postMsg o)).db = (deferred o s.postMsgData).foldl replay s.db := by
    rw [← hafter]
    exact postMsgProcess_db o s
  have hlast : lastStamp s.db (deferred o s.postMsgData) r = obs.time := by
    refine lastStamp_eq (fun d hd hin hid => hlost d hd r hshow.mem hin hid key obs hshow.key_eq
      hobs) ?_
    rcases hstamp with hstamp | ⟨d, hd, hin, hid, -⟩
    · exact Or.inl hstamp
    · exact Or.inr ⟨d, mem_deferred.mpr (mem_deferred.mp hd), hin, hid⟩
  have hkey : keyOf cfg (step cfg s (.postMsg o)) r.context = some key := by
    have hfields : (step cfg s (.postMsg o)).contextFields = s.contextFields
        ∧ (step cfg s (.postMsg o)).contextFieldsMissingOk = s.contextFieldsMissingOk := by
      show (postMsgProcess o s).contextFields = _ ∧ (postMsgProcess o s).contextFieldsMissingOk = _
      unfold postMsgProcess
      simp only
      split_ifs <;> exact ⟨rfl, rfl⟩
    unfold keyOf
    rw [hfields.1, hfields.2]
    exact hshow.key_eq
  refine ⟨{ r with updatedAt := lastStamp s.db (deferred o s.postMsgData) r },
    ⟨?_, ?_, hkey, hshow.data_same⟩, hlast⟩
  · rw [hdb, foldl_replay_rows]
    exact List.mem_map_of_mem hshow.mem
  · have hschema : (step cfg s (.postMsg o)).db.schema = s.db.schema :=
      (keeps_step cfg s _).schema_eq
    unfold Db.isIn
    rw [hschema]
    exact hshow.isIn

/-! ## Batches -/

/-- The items of a round. -/
theorem During.run_saves {τ : Int} {m : ItemMeta} (hm : Plain m.flags)
    (l : List (Context × Item)) {p : Storer κ × Seen κ} (h : During cfg τ p.1 p.2)
    (hlost : Run.Along (observe cfg) (NotLost cfg) p (l.map (fun q => .save τ m q.1 q.2))) :
    During cfg τ (Run.run (observe cfg) p (l.map (fun q => .save τ m q.1 q.2))).1
      (Run.run (observe cfg) p (l.map (fun q => .save τ m q.1 q.2))).2 := by
  induction l generalizing p with
  | nil => exact h
  | cons q l ih => exact ih (h.save cfg hm q.1 q.2 hlost.1) hlost.2

theorem between_round {p : Storer κ × Seen κ} (h : Between cfg p.1 p.2) (r : Round)
    (hm : Plain r.meta'.flags)
    (hlost : Run.Along (observe cfg) (NotLost cfg) p (r.events cfg p.1)) :
    Between cfg (Run.run (observe cfg) p (r.events cfg p.1)).1
      (Run.run (observe cfg) p (r.events cfg p.1)).2 := by
  have hpre := between_preBulkProcess cfg h r.meta' r.context r.data
  cases hout : (preBulkProcess cfg r.meta' r.context r.data p.1).1 with
  | error e =>
    have hevents : r.events cfg p.1 = [.preBulk r.meta' r.context r.data] := by
      unfold Round.events
      rw [hout]
    rw [hevents]
    exact hpre
  | ok u =>
    have hevents : r.events cfg p.1 = .preBulk r.meta' r.context r.data :: r.inner := by
      unfold Round.events
      rw [hout]
    rw [hevents, Round.inner] at hlost ⊢
    rw [Run.run_cons, Run.run_append]
    have hinner := (Run.along_append.mp hlost.2).1
    have hduring := hpre.during cfg (table_preBulkProcess cfg hout) r.time
    exact (During.run_saves cfg hm r.saves (p := observe cfg p _) hduring hinner).postBulk cfg

theorem between_rounds (rs : List Round) (hm : ∀ r ∈ rs, Plain r.meta'.flags)
    {p : Storer κ × Seen κ} (h : Between cfg p.1 p.2)
    (hlost : Run.Along (observe cfg) (NotLost cfg) p (roundsEvents cfg rs p.1)) :
    Between cfg (Run.run (observe cfg) p (roundsEvents cfg rs p.1)).1
      (Run.run (observe cfg) p (roundsEvents cfg rs p.1)).2 := by
  induction rs generalizing p with
  | nil => exact h
  | cons r rs ih =>
    rw [roundsEvents] at hlost ⊢
    rw [← run_observe_fst cfg p] at hlost ⊢
    rw [Run.run_append]
    obtain ⟨hround, hrest⟩ := Run.along_append.mp hlost
    exact ih (fun q hq => hm q (List.mem_cons_of_mem r hq))
      (between_round cfg h r (hm r List.mem_cons_self) hround) hrest

/-- **No lost observation**: a batch whose caches do not mislead it stores the last datum
observed for each key, with the time of that observation. -/
theorem stored_of_notLost {s : Storer κ} (hwf : s.db.WellFormed) (b : Batch)
    (hplain : ∀ r ∈ b.rounds, Plain r.meta'.flags)
    (hlost : Run.Along (observe cfg) (NotLost cfg) (s, fun _ => none) (b.events cfg s)) :
    Stored cfg (Run.run (observe cfg) (s, fun _ => none) (b.events cfg s)).1
      (Run.run (observe cfg) (s, fun _ => none) (b.events cfg s)).2 := by
  have hpre := between_preMsgProcess cfg hwf b.msg
  cases hout : preMsgProcess cfg b.msg s with
  | mk out s' =>
    have hs' : step cfg s (.preMsg b.msg) = s' := by
      show (preMsgProcess cfg b.msg s).2 = s'
      rw [hout]
    rw [hout] at hpre
    cases out with
    | error e =>
      have hevents : b.events cfg s = [.preMsg b.msg] := by
        unfold Batch.events
        rw [hout]
      rw [hevents]
      intro key o ho
      cases ho
    | ok u =>
      have hevents : b.events cfg s
          = .preMsg b.msg :: (roundsEvents cfg b.rounds s' ++ [.postMsg b.order]) := by
        unfold Batch.events
        rw [hout]
      have hfirst : observe cfg (s, fun _ => none) (.preMsg b.msg) = (s', fun _ => none) :=
        Prod.ext hs' rfl
      rw [hevents, Run.Along, hfirst] at hlost
      rw [hevents, Run.run_cons, hfirst, Run.run_append]
      obtain ⟨hrounds, hpost⟩ := Run.along_append.mp hlost.2
      exact (between_rounds cfg b.rounds hplain (p := (s', fun _ => none)) hpre hrounds).postMsg cfg
        hpost.1

/-! ## Two ports of one device -/

/-- The context of a second port. -/
def secondPortContext : Context :=
  Dict.ofList [("device", .str "rtr-core1"), ("port", .str "1/2")]

/-- The rows of both ports, without errors so far. -/
def portRows : List Row :=
  [⟨1, 50, 50, flatten portContext, Dict.ofList [("errors", "0")], "ports__status"⟩,
    ⟨2, 50, 50, flatten secondPortContext, Dict.ofList [("errors", "0")], "ports__status"⟩]

/-- One message with data for the second port. -/
def secondPortRound (time : Int) (d : Item) : Round where
  time := time
  meta' := portMeta
  context := secondPortContext
  data := [d]
  saves := [(secondPortContext, d)]

/-- A message about the given ports. -/
def portBatch (rounds : List Round) : Batch where
  msg := [portMessage]
  rounds := rounds

theorem wellFormed_portRows : (sampleStorer portRows 3).db.WellFormed := by
  refine ⟨by decide, fun r hr => ?_⟩
  have hr' : r ∈ portRows := hr
  show r.id < 3
  rcases List.mem_cons.mp hr' with rfl | hr'
  · decide
  · rw [List.mem_singleton.mp hr']
    decide

theorem uniqueKeys_portRows :
    UniqueKeys sampleConfig "ports__status" (sampleStorer portRows 3).db := by
  have hne : rowKey sampleConfig "ports__status" (flatten portContext)
      ≠ rowKey sampleConfig "ports__status" (flatten secondPortContext) := by decide
  rintro r hr r' hr' - - ⟨k, hk, hk'⟩
  have hrows : ∀ q ∈ (sampleStorer portRows 3).db.rows, q.id = 1 ∧ q.context = flatten portContext
      ∨ q.id = 2 ∧ q.context = flatten secondPortContext := by
    intro q hq
    have hq' : q ∈ portRows := hq
    rcases List.mem_cons.mp hq' with rfl | hq'
    · exact Or.inl ⟨rfl, rfl⟩
    · rw [List.mem_singleton.mp hq']
      exact Or.inr ⟨rfl, rfl⟩
  rcases hrows r hr with ⟨hid, hctx⟩ | ⟨hid, hctx⟩
  all_goals
    rcases hrows r' hr' with ⟨hid', hctx'⟩ | ⟨hid', hctx'⟩
    all_goals rw [hctx] at hk; rw [hctx'] at hk'
  · rw [hid, hid']
  · exact absurd (hk.trans hk'.symm) hne
  · exact absurd (hk'.trans hk.symm) hne
  · rw [hid, hid']

/-- The observation of one port is stored. -/
theorem stored_firstPort :
    let b := portBatch [portRound 100 [Dict.ofList [("errors", .int 7)]]]
    Stored sampleConfig
      (Run.run (observe sampleConfig) (sampleStorer portRows 3, fun _ => none)
        (b.events sampleConfig (sampleStorer portRows 3))).1
      (Run.run (observe sampleConfig) (sampleStorer portRows 3, fun _ => none)
        (b.events sampleConfig (sampleStorer portRows 3))).2 := by
  refine stored_of_notLost sampleConfig wellFormed_portRows
    (portBatch [portRound 100 [Dict.ofList [("errors", .int 7)]]]) (fun r hr => ?_)
    ⟨trivial, trivial, fun w hw => ?_, trivial, fun d hd => absurd hd List.not_mem_nil, trivial⟩
  · rw [List.mem_singleton.mp hr]
    exact ⟨rfl, rfl, rfl⟩
  · cases hw
    refine ⟨by decide, fun doc hdoc => ?_, fun _ => rfl⟩
    cases hdoc
    exact ⟨_, List.mem_cons_self, rfl, rfl, rfl, fun hd => absurd hd (by decide)⟩

/-- Where the message is about both ports, the rows of the device are looked up once for each
of them, so that the second port has two cached rows, and its observation is lost. -/
theorem not_stored_twoPorts :
    let b := portBatch [portRound 100 [Dict.ofList [("errors", .int 7)]],
      secondPortRound 100 (Dict.ofList [("errors", .int 8)])]
    UniqueKeys sampleConfig "ports__status" (sampleStorer portRows 3).db
      ∧ ¬ Stored sampleConfig
        (Run.run (observe sampleConfig) (sampleStorer portRows 3, fun _ => none)
          (b.events sampleConfig (sampleStorer portRows 3))).1
        (Run.run (observe sampleConfig) (sampleStorer portRows 3, fun _ => none)
          (b.events sampleConfig (sampleStorer portRows 3))).2 := by
  refine ⟨uniqueKeys_portRows, fun h => ?_⟩
  obtain ⟨r, hr, -⟩ := h [("device", some "rtr-core1"), ("port", some "1/2")]
    ⟨"ports__status", 100, flatten (Dict.ofList [("errors", .int 8)])⟩ rfl
  have hmem : r ∈ [(⟨1, 100, 100, flatten portContext,
        flatten (Dict.ofList [("errors", .int 7)]), "ports__status"⟩ : Row),
      ⟨2, 50, 50, flatten secondPortContext, Dict.ofList [("errors", "0")], "ports__status"⟩] :=
    hr.mem
  have hdata := hr.data_same "errors"
  rcases List.mem_cons.mp hmem with rfl | hmem
  · exact absurd hdata (by decide)
  · rw [List.mem_singleton.mp hmem] at hdata
    exact absurd hdata (by decide)

end Postgres
