/-
# Conservation of items by the feeder

`Feeder.process_task` hands every item of a message to `save` exactly once, with
the item's fields split between context and data and nothing else added or
lost (`processTask_conserves`).

The proof follows the three stages of the code.  `_extract_extractable` says what
context and index names a message has; `lookup_foldl_addItem` that
grouping by context is the splitting of the item list into its key classes;
`lookup_moveKeys` that both in-place moves take fields from the item to the
context.  The order of the items of one context survives because the key
classes are sublists (`Dict.filter_flatMap_filter`).
-/
import Ptolemy.Feeder

namespace Feeder

/-! ## Moving fields from the item to the context -/

theorem lookup_moveKeys_snd (ks : List String) (ctx : Context) (item : Item) (k : String) :
    (moveKeys ks ctx item).2.lookup k = if k ∈ ks then none else item.lookup k := by
  unfold moveKeys
  induction ks generalizing ctx item with
  | nil => simp
  | cons x ks ih =>
    rw [List.foldl_cons]
    cases hx : item.lookup x with
    | none =>
      simp only
      rw [ih]
      by_cases hk : k ∈ ks
      · simp [hk]
      · by_cases hkx : k = x
        · subst hkx; simp [hk, hx]
        · simp [hk, hkx]
    | some v =>
      simp only
      rw [ih, Dict.lookup_erase_eq]
      by_cases hk : k ∈ ks
      · simp [hk]
      · by_cases hkx : k = x
        · simp [hkx]
        · simp [hk, hkx]

theorem lookup_moveKeys_fst (ks : List String) (ctx : Context) (item : Item) (k : String) :
    (moveKeys ks ctx item).1.lookup k
      = if k ∈ ks then (item.lookup k).or (ctx.lookup k) else ctx.lookup k := by
  unfold moveKeys
  induction ks generalizing ctx item with
  | nil => simp
  | cons x ks ih =>
    rw [List.foldl_cons]
    cases hx : item.lookup x with
    | none =>
      simp only
      rw [ih]
      by_cases hk : k ∈ ks
      · simp [hk]
      · by_cases hkx : k = x
        · subst hkx; simp [hk, hx]
        · simp [hk, hkx]
    | some v =>
      simp only
      rw [ih, Dict.lookup_erase_eq, Dict.lookup_insert_eq]
      by_cases hkx : k = x
      · subst hkx; simp [hx]
      · by_cases hk : k ∈ ks <;> simp [hk, hkx]

/-! ## The first stage: `_extract` on a well-formed message -/

/-- The names that cannot be used as fields of a message: its structured entries. -/
def reserved : List String := ["_meta", "context", "data", "timestamp"]

/-- The field and the value of a group `<group>@<field>=<value>`. -/
def subGroup (group : String) : Option (String × Value) :=
  if '@' ∈ group.toList then
    match Text.split '=' (Text.partition '@' group).2.2 with
    | [k, v] => some (k, .ofText v)
    | _ => none
  else none

/-- The group without its `@<field>=<value>`. -/
def bareGroup (group : String) : String :=
  if '@' ∈ group.toList then (Text.partition '@' group).1 else group

/-- The message context with the field of the group, if any. -/
def baseContext (ctx : Context) (group : String) : Context :=
  match subGroup group with
  | some (k, v) => ctx.insert k v
  | none => ctx

/-- A message that `_extract` accepts: all entries are there, the group is plain or of the
form `<group>@<field>=<value>`, and no name of `key_name` or of the group is that
of a structured entry. -/
structure Extractable (this : Message) (m : Meta) (group spec : String) (ctx : Context)
    (time : Value) (data : Data) (items : List Item) : Prop where
  meta_eq : this._meta = some m
  group_eq : m.group = some group
  spec_eq : m.spec = some spec
  context_eq : this.context = some ctx
  timestamp_eq : this.timestamp = some time
  data_eq : this.data = some data
  items_eq : data.items? = some items
  group_form : '@' ∈ group.toList → (subGroup group).isSome
  keyNames_plain : ∀ k ∈ m.keyName.elim [] KeyName.names, k ∈ ctx ∨ k ∉ reserved
  subGroup_plain : ∀ k v, subGroup group = some (k, v) → k ∉ reserved

/-- The context with the fields of the message that `key_name` names and the context
does not have. -/
def gatheredContext (this : Message) (m : Meta) (ctx : Context) : Context :=
  (Dict.restrict (fun k => k ∈ m.keyName.elim [] KeyName.names) this.fields).overlay ctx

/-- The names of all index fields of a message. -/
def indexNames (m : Meta) (base : Context) (k : String) : Prop :=
  k ∈ base ∨ k ∈ m.keyName.elim [] KeyName.names

theorem lookup_startExtract (this : Message) (ctx : Context) (k : String) :
    (startExtract this ctx).kwargs.lookup k = ctx.lookup k := by
  have hdevice : ∀ d : Value, (AList.insert "device" d (∅ : Context)).lookup k
      = if k = "device" then some d else none := by
    intro d
    rw [Dict.lookup_insert_eq, AList.lookup_empty]
  unfold startExtract
  simp only [Dict.lookup_overlay, Dict.lookup_erase_eq]
  by_cases hk : k = "device"
  · subst hk
    rw [if_pos rfl, Option.none_or]
    cases h : ctx.lookup "device" with
    | none => exact AList.lookup_empty "device"
    | some d => rw [hdevice, if_pos rfl]
  · rw [if_neg hk]
    cases h : ctx.lookup "device" with
    | none => simp
    | some d => simp only [hdevice, if_neg hk, Option.or_none]

theorem mem_indexes_startExtract (this : Message) (ctx : Context) (k : String) :
    k ∈ (startExtract this ctx).indexes ↔ k ∈ ctx := by
  have hkeys : (startExtract this ctx).indexes = (startExtract this ctx).kwargs.keys := rfl
  rw [hkeys, ← AList.mem_keys, Dict.mem_iff_lookup, Dict.mem_iff_lookup,
    lookup_startExtract]

/-- A name that is no structured entry names a plain field or nothing. -/
theorem pop_of_notMem_reserved {this : Message} {i : String} (h : i ∉ reserved) :
    this.pop i = (this.fields.lookup i).map
      (fun v => (v, { this with fields := this.fields.erase i })) := by
  simp only [reserved, List.mem_cons, List.not_mem_nil, or_false, not_or] at h
  obtain ⟨h₁, h₂, h₃, h₄⟩ := h
  have hhas : this.has i = decide (i ∈ this.fields) := by
    unfold Message.has
    rw [if_neg h₁, if_neg h₂, if_neg h₃, if_neg h₄]
  unfold Message.pop
  rw [hhas]
  cases hl : this.fields.lookup i with
  | none =>
    rw [if_pos (decide_eq_false (AList.lookup_eq_none.mp hl))]
    rfl
  | some v =>
    have hmem : i ∈ this.fields := Dict.mem_iff_lookup.mpr ⟨v, hl⟩
    rw [if_neg (by simp [hmem]), if_neg h₁, if_neg h₂, if_neg h₃, if_neg h₄]
    rfl

/-- A name that is no index yet takes its field out of the message. -/
theorem takeKeyName_of_notMem {st : Extracting} {x : String} (hx : x ∉ st.indexes)
    (hres : x ∉ reserved) : takeKeyName st x = match st.this.fields.lookup x with
      | some v => ⟨{ st.this with fields := st.this.fields.erase x },
          st.kwargs.insert x v, st.indexes ++ [x]⟩
      | none => ⟨st.this, st.kwargs, st.indexes ++ [x]⟩ := by
  unfold takeKeyName
  rw [if_neg hx, pop_of_notMem_reserved hres]
  cases st.this.fields.lookup x <;> rfl

/-- Gathering the key names: fields of the message that are no index yet move into the
context, the structured entries stay, and every name becomes an index. -/
theorem foldl_takeKeyName (ks : List String) (st : Extracting)
    (h : ∀ k ∈ ks, k ∈ st.indexes ∨ k ∉ reserved) :
    (∃ fields, (ks.foldl takeKeyName st).this = { st.this with fields := fields })
      ∧ (∀ k, (ks.foldl takeKeyName st).kwargs.lookup k
          = if k ∈ st.indexes ∨ k ∉ ks then st.kwargs.lookup k
            else (st.this.fields.lookup k).or (st.kwargs.lookup k))
      ∧ ∀ k, k ∈ (ks.foldl takeKeyName st).indexes ↔ k ∈ st.indexes ∨ k ∈ ks := by
  induction ks generalizing st with
  | nil => exact ⟨⟨st.this.fields, rfl⟩, fun k => by simp, fun k => by simp⟩
  | cons x ks ih =>
    rw [List.foldl_cons]
    by_cases hx : x ∈ st.indexes
    · -- a name that is an index already is skipped
      have hst : takeKeyName st x = st := by unfold takeKeyName; rw [if_pos hx]
      rw [hst]
      obtain ⟨h₁, h₂, h₃⟩ := ih st (fun k hk => h k (List.mem_cons_of_mem x hk))
      refine ⟨h₁, fun k => ?_, fun k => ?_⟩
      · rw [h₂]
        by_cases hk : k ∈ st.indexes
        · simp [hk]
        · have hkx : k ≠ x := fun hc => hk (hc ▸ hx)
          simp [hk, hkx]
      · rw [h₃, List.mem_cons]
        constructor
        · rintro (hk | hk)
          · exact Or.inl hk
          · exact Or.inr (Or.inr hk)
        · rintro (hk | rfl | hk)
          · exact Or.inl hk
          · exact Or.inl hx
          · exact Or.inr hk
    · -- a new name: its field, if there is one, leaves the message for the context
      have hres : x ∉ reserved := (h x List.mem_cons_self).resolve_left hx
      have hst := takeKeyName_of_notMem hx hres
      have hind : (takeKeyName st x).indexes = st.indexes ++ [x] := by
        rw [hst]; cases st.this.fields.lookup x <;> rfl
      have hthis : ∃ fields, (takeKeyName st x).this = { st.this with fields := fields }
          ∧ ∀ k, k ≠ x → fields.lookup k = st.this.fields.lookup k := by
        rw [hst]
        cases st.this.fields.lookup x with
        | none => exact ⟨st.this.fields, rfl, fun k _ => rfl⟩
        | some v =>
          exact ⟨st.this.fields.erase x, rfl, fun k hk => AList.lookup_erase_ne hk⟩
      have hkw : ∀ k, (takeKeyName st x).kwargs.lookup k
          = if k = x then (st.this.fields.lookup x).or (st.kwargs.lookup x)
            else st.kwargs.lookup k := by
        intro k
        rw [hst]
        by_cases hkx : k = x
        · subst hkx
          cases st.this.fields.lookup k with
          | none => simp
          | some v => simp [AList.lookup_insert]
        · cases st.this.fields.lookup x with
          | none => simp [hkx]
          | some v => simp [hkx, AList.lookup_insert_ne]
      obtain ⟨fields, hfields, hlook⟩ := hthis
      obtain ⟨⟨fields', h₁⟩, h₂, h₃⟩ := ih (takeKeyName st x) (by
        intro k hk
        rw [hind]
        rcases h k (List.mem_cons_of_mem x hk) with hk' | hk'
        · exact Or.inl (List.mem_append_left _ hk')
        · exact Or.inr hk')
      refine ⟨⟨fields', by rw [h₁, hfields]⟩, fun k => ?_, fun k => ?_⟩
      · rw [h₂, hkw, hind, hfields]
        by_cases hkx : k = x
        · subst hkx; simp [hx]
        · simp only [List.mem_append, hkx, if_false, List.mem_cons, List.not_mem_nil, or_false,
            false_or, hlook k hkx]
      · rw [h₃, hind, List.mem_cons, List.mem_append, List.mem_singleton, or_assoc]

/-- Splitting the group of a message whose group has the right form. -/
theorem takeSubGroup_eq {st : Extracting} {m : Meta} {group : String}
    (hm : st.this._meta = some m) (hg : m.group = some group)
    (hform : '@' ∈ group.toList → (subGroup group).isSome)
    (hplain : ∀ k v, subGroup group = some (k, v) → k ∉ reserved) :
    ∃ st', takeSubGroup st = .ok st'
      ∧ st'.this._meta = some { m with group := some (bareGroup group) }
      ∧ st'.this.context = st.this.context ∧ st'.this.data = st.this.data
      ∧ st'.this.timestamp = st.this.timestamp
      ∧ st'.kwargs = baseContext st.kwargs group
      ∧ st'.indexes = st.indexes ++ ((subGroup group).map Prod.fst).toList := by
  unfold takeSubGroup bareGroup baseContext
  simp only [hm, hg]
  by_cases hat : '@' ∈ group.toList
  · obtain ⟨⟨k, v⟩, hkv⟩ := Option.isSome_iff_exists.mp (hform hat)
    have hres := hplain k v hkv
    have hsplit := hkv
    unfold subGroup at hsplit
    rw [if_pos hat] at hsplit
    rw [hkv, if_pos hat, if_pos hat]
    -- the form of the group leaves two pieces around the sign only
    rcases hs : Text.split '=' (Text.partition '@' group).2.2 with _ | ⟨a, _ | ⟨b, _ | ⟨c, t⟩⟩⟩
    · rw [hs] at hsplit; simp at hsplit
    · rw [hs] at hsplit; simp at hsplit
    · rw [hs] at hsplit
      simp only [Option.some.injEq, Prod.mk.injEq] at hsplit
      obtain ⟨rfl, rfl⟩ := hsplit
      simp only [reserved, List.mem_cons, List.not_mem_nil, or_false, not_or] at hres
      obtain ⟨h₁, h₂, h₃, h₄⟩ := hres
      have hset : st.this.set a (Value.ofText b)
          = { st.this with fields := st.this.fields.insert a (Value.ofText b) } := by
        unfold Message.set
        rw [if_neg h₁, if_neg h₂, if_neg h₃, if_neg h₄]
      refine ⟨{ this := { st.this.set a (Value.ofText b) with
            _meta := some { m with group := some (Text.partition '@' group).1 } }
                kwargs := st.kwargs.insert a (Value.ofText b)
                indexes := st.indexes ++ [a] }, ?_, rfl, ?_, ?_, ?_, rfl, rfl⟩
      · simp only [hset, hm]
        rfl
      all_goals rw [hset]
    · rw [hs] at hsplit; simp at hsplit
  · have hnone : subGroup group = none := by unfold subGroup; rw [if_neg hat]
    rw [hnone, if_neg hat, if_neg hat]
    refine ⟨st, rfl, ?_, rfl, rfl, rfl, rfl, by simp⟩
    rw [hm, ← hg]

/-- **What `_extract` gives for a message it accepts**: the time, the bare group, the
gathered context with the field of the group, and as index names those of this
context and the key names. -/
theorem _extract_extractable {this : Message} {m : Meta} {group spec : String} {ctx : Context}
    {time : Value} {data : Data} {items : List Item} (ttd : Bool)
    (hex : Extractable this m group spec ctx time data items)
    (htime : ttd = true → utcfromtimestamp time = .ok time) :
    ∃ indexes base, _extract ttd this
        = .ok (time, ⟨bareGroup group, spec, indexes, m.flags⟩, base, data)
      ∧ Dict.Same base (baseContext (gatheredContext this m ctx) group)
      ∧ ∀ k, k ∈ indexes ↔ indexNames m (baseContext (gatheredContext this m ctx) group) k := by
  have hctx := hex.context_eq
  obtain ⟨⟨fields, hthis⟩, hkwargs, hindexes⟩ :=
    foldl_takeKeyName (m.keyName.elim [] KeyName.names) (startExtract this ctx) (by
      intro k hk
      rw [mem_indexes_startExtract]
      exact hex.keyNames_plain k hk)
  set st := (m.keyName.elim [] KeyName.names).foldl takeKeyName (startExtract this ctx)
    with hst
  -- what the key names gather: the context where it has the name, else the field
  have hgathered : Dict.Same st.kwargs (gatheredContext this m ctx) := by
    intro k
    have hfields : (startExtract this ctx).this.fields = this.fields := rfl
    rw [hkwargs, lookup_startExtract, gatheredContext, Dict.lookup_overlay,
      Dict.lookup_restrict, hfields]
    simp only [mem_indexes_startExtract]
    by_cases hk : k ∈ ctx
    · obtain ⟨v, hv⟩ := Dict.mem_iff_lookup.mp hk
      simp [hk, hv]
    · rw [AList.lookup_eq_none.mpr hk]
      by_cases hk' : k ∈ m.keyName.elim [] KeyName.names <;> simp [hk, hk']
  have hm' : st.this._meta = some m := by rw [hthis]; exact hex.meta_eq
  obtain ⟨st', hsub, hmeta, hcontext, hdata, htimestamp, hkw', hix'⟩ :=
    takeSubGroup_eq hm' hex.group_eq hex.group_form hex.subGroup_plain
  rw [hthis] at hcontext hdata htimestamp
  have hcontext' : st'.this.context = some (ctx.erase "device") := hcontext
  have hdata' : st'.this.data = some data := hdata.trans hex.data_eq
  have htimestamp' : st'.this.timestamp = some time := htimestamp.trans hex.timestamp_eq
  refine ⟨st'.indexes, st'.kwargs, ?_, ?_, ?_⟩
  · unfold _extract
    rw [hex.meta_eq]
    simp only [Option.elim_some, hex.group_eq, hex.spec_eq, hctx, pure_bind, ← hst]
    rw [hsub]
    simp only [Except.ok_bind, hmeta, hcontext', hdata', htimestamp']
    cases ttd with
    | false => rfl
    | true =>
      simp only [Option.bind_some, Option.elim_some, pure_bind, if_true, htime rfl]
      rfl
  · rw [hkw']
    intro k
    unfold baseContext
    cases subGroup group with
    | none => exact hgathered k
    | some p => simp only [Dict.lookup_insert_eq, hgathered k]
  · intro k
    have hmem : k ∈ gatheredContext this m ctx
        ∨ k ∈ m.keyName.elim [] KeyName.names ↔ k ∈ ctx
        ∨ k ∈ m.keyName.elim [] KeyName.names := by
      rw [gatheredContext, Dict.mem_overlay, Dict.mem_restrict]
      simp only [decide_eq_true_eq]
      constructor
      · rintro ((⟨hk, -⟩ | hk) | hk)
        · exact Or.inr hk
        · exact Or.inl hk
        · exact Or.inr hk
      · rintro (hk | hk)
        · exact Or.inl (Or.inr hk)
        · exact Or.inr hk
    rw [hix', List.mem_append, hindexes, mem_indexes_startExtract, indexNames, baseContext,
      ← hmem]
    cases subGroup group with
    | none => simp
    | some p =>
      simp only [Option.map_some, Option.toList_some, List.mem_singleton, AList.mem_insert]
      rw [or_comm, ← or_assoc]

/-! ## The second stage: grouping the items by context -/

variable {κ : Type} [DecidableEq κ]

/-- `kv` tells the contexts satisfying `P` apart, and depends on them only as
dictionaries. -/
def Faithful (kv : Context → κ) (P : Context → Prop) : Prop :=
  ∀ c c', P c → P c' → (kv c = kv c' ↔ Dict.Same c c')

/-- One item is appended to its context and changes no other. -/
theorem lookup_addItem (kv : Context → κ) (nc : Dict κ (Context × List Item))
    (p : Context × Item) (q : κ) :
    (addItem kv nc p).lookup q
      = if q = kv p.1 then
          some ((nc.lookup q).elim (p.1, [p.2]) (fun e => (e.1, e.2 ++ [p.2])))
        else nc.lookup q := by
  unfold addItem
  by_cases hq : q = kv p.1
  · subst hq
    rw [if_pos rfl]
    cases nc.lookup (kv p.1) with
    | none => exact AList.lookup_insert nc
    | some e => exact AList.lookup_insert nc
  · rw [if_neg hq]
    cases nc.lookup (kv p.1) with
    | none => exact AList.lookup_insert_ne hq
    | some e => exact AList.lookup_insert_ne hq

/-- The contexts built so far are the key classes of the items met so far: the
context of the first item of the class, and all its items in order. -/
theorem lookup_foldl_addItem (kv : Context → κ) (l : List (Context × Item)) (q : κ) :
    (l.foldl (addItem kv) ∅).lookup q
      = (l.filter (fun p => decide (kv p.1 = q))).head?.map
          (fun p => (p.1, (l.filter (fun p => decide (kv p.1 = q))).map Prod.snd)) := by
  induction l using List.reverseRecOn with
  | nil => rfl
  | append_singleton l p ih =>
    rw [List.foldl_append, List.foldl_cons, List.foldl_nil, List.filter_append,
      lookup_addItem, ih]
    by_cases hq : q = kv p.1
    · subst hq
      rw [if_pos rfl]
      cases l.filter (fun x => decide (kv x.1 = kv p.1)) with
      | nil => simp
      | cons x xs => simp
    · have hne : kv p.1 ≠ q := fun hc => hq hc.symm
      rw [if_neg hq]
      simp [hne]

/-- The context under which the items of the class of `c` are saved: that of the
first item of the class. -/
def classContext (kv : Context → κ) (l : List (Context × Item)) (c : Context) : Context :=
  ((l.filter (fun p => decide (kv p.1 = kv c))).head?.map Prod.fst).getD c

theorem classContext_same {kv : Context → κ} {P : Context → Prop} (hkv : Faithful kv P)
    {l : List (Context × Item)} (hP : ∀ p ∈ l, P p.1) {p : Context × Item} (hp : p ∈ l) :
    Dict.Same (classContext kv l p.1) p.1 := by
  have hmem : p ∈ l.filter (fun x => decide (kv x.1 = kv p.1)) := by
    rw [List.mem_filter]
    exact ⟨hp, by simp⟩
  unfold classContext
  cases hl : l.filter (fun x => decide (kv x.1 = kv p.1)) with
  | nil => rw [hl] at hmem; exact absurd hmem List.not_mem_nil
  | cons x xs =>
    have hx : x ∈ l.filter (fun y => decide (kv y.1 = kv p.1)) := by
      rw [hl]; exact List.mem_cons_self
    obtain ⟨hxl, hxk⟩ := List.mem_filter.mp hx
    exact (hkv x.1 p.1 (hP x hxl) (hP p hp)).mp (of_decide_eq_true hxk)

/-- All calls of `save` for the contexts of a message. -/
def callsOf (time : Value) (m : ItemMeta) (delta : Option Int)
    (contexts : List (Context × List Item)) : List SaveCall :=
  contexts.flatMap (fun p => p.2.map (saveCall time m delta p.1))

/-- The contexts of the grouped items, visited in any order: a sequence of all the
keys, each once, with the class of each. -/
theorem callsOf_grouped (kv : Context → κ) (o : IterOrder) (time : Value) (m : ItemMeta)
    (delta : Option Int) (l : List (Context × Item)) :
    ∃ qs : List κ, qs.Nodup ∧ (∀ p ∈ l, kv p.1 ∈ qs)
      ∧ callsOf time m delta ((o.order (l.foldl (addItem kv) ∅).items).map Prod.snd)
        = (qs.flatMap (fun q => l.filter (fun p => decide (kv p.1 = q)))).map
            (fun p => saveCall time m delta (classContext kv l p.1) p.2) := by
  set nc := l.foldl (addItem kv) ∅ with hnc
  have hkeys : nc.items.map Prod.fst = nc.keys := nc.items_map_fst
  refine ⟨(o.order nc.items).map Prod.fst, ?_, ?_, ?_⟩
  · rw [((o.perm nc.items).map Prod.fst).nodup_iff, hkeys]
    exact nc.keys_nodup
  · intro p hp
    rw [((o.perm nc.items).map Prod.fst).mem_iff, hkeys, ← AList.mem_keys,
      Dict.mem_iff_lookup, hnc, lookup_foldl_addItem]
    have hmem : p ∈ l.filter (fun x => decide (kv x.1 = kv p.1)) := by
      rw [List.mem_filter]
      exact ⟨hp, by simp⟩
    cases hl : l.filter (fun x => decide (kv x.1 = kv p.1)) with
    | nil => rw [hl] at hmem; exact absurd hmem List.not_mem_nil
    | cons x xs => exact ⟨_, rfl⟩
  · rw [callsOf, List.flatMap_map, List.flatMap_map, List.map_flatMap]
    apply List.flatMap_congr
    rintro ⟨q, ctx, data⟩ hmem
    rw [(o.perm nc.items).mem_iff, Dict.mem_items, hnc, lookup_foldl_addItem] at hmem
    simp only
    cases hl : l.filter (fun p => decide (kv p.1 = q)) with
    | nil => rw [hl] at hmem; simp at hmem
    | cons x xs =>
      rw [hl] at hmem
      simp only [List.head?_cons, Option.map_some, Option.some.injEq, Prod.mk.injEq] at hmem
      obtain ⟨rfl, rfl⟩ := hmem
      rw [List.map_map]
      apply List.map_congr_left
      intro p hp
      have hp' : p ∈ l.filter (fun p => decide (kv p.1 = q)) := by rw [hl]; exact hp
      have hkq : kv p.1 = q := of_decide_eq_true (List.mem_filter.mp hp').2
      simp only [Function.comp]
      rw [classContext, hkq, hl]
      rfl

/-! ## The third stage: the calls of `save` -/

/-- The call of `save` for an item: context and data have no field in common, together
they are the base context overlaid by the item, and the context has exactly the
base fields and the key names that the item has. -/
structure Conserves (base : Context) (names : String → Prop) (item : Item) (call : SaveCall) :
    Prop where
  disjoint : ∀ k, ¬ (k ∈ call.context ∧ k ∈ call.data)
  union : ∀ k, (call.context.lookup k).or (call.data.lookup k)
    = (item.lookup k).or (base.lookup k)
  context_keys : ∀ k, k ∈ call.context ↔ k ∈ base ∨ (names k ∧ k ∈ item)

/-- The context and the data of a call, field by field. -/
theorem lookup_saveCall {base ctx : Context} {item : Item} {m : ItemMeta} (time : Value)
    (delta : Option Int) (hctx : Dict.Same ctx (extractContext base item).1)
    (hnames : ∀ k, k ∈ base → k ∈ m.keyName) (k : String) :
    (saveCall time m delta ctx (extractContext base item).2).context.lookup k
        = (if k ∈ m.keyName then (item.lookup k).or (base.lookup k) else none)
      ∧ (saveCall time m delta ctx (extractContext base item).2).data.lookup k
        = if k ∈ m.keyName then none else item.lookup k := by
  have hbase : k ∉ m.keyName → base.lookup k = none := by
    intro hk
    exact AList.lookup_eq_none.mpr (fun hc => hk (hnames k hc))
  unfold saveCall
  simp only
  rw [lookup_moveKeys_fst, lookup_moveKeys_snd, hctx k]
  unfold extractContext
  rw [lookup_moveKeys_fst, lookup_moveKeys_snd]
  simp only [← AList.mem_keys]
  by_cases hk : k ∈ m.keyName
  · rw [if_pos hk, if_pos hk, if_pos hk, if_pos hk]
    refine ⟨?_, rfl⟩
    by_cases hb : k ∈ base
    · rw [if_pos hb, if_pos hb, Option.none_or]
    · rw [if_neg hb, if_neg hb]
  · have hb : k ∉ base := fun hc => hk (hnames k hc)
    rw [if_neg hk, if_neg hk, if_neg hk, if_neg hk, if_neg hb, if_neg hb, hbase hk]
    exact ⟨rfl, rfl⟩

theorem saveCall_conserves {base base' ctx : Context} {item : Item} {m : ItemMeta}
    {names : String → Prop} (time : Value) (delta : Option Int)
    (hbase : Dict.Same base' base)
    (hctx : Dict.Same ctx (extractContext base' item).1)
    (hnames : ∀ k, k ∈ m.keyName ↔ k ∈ base ∨ names k) :
    Conserves base names item (saveCall time m delta ctx (extractContext base' item).2) := by
  have hin : ∀ k, k ∈ base' → k ∈ m.keyName := fun k hk =>
    (hnames k).mpr (Or.inl ((hbase.mem_iff k).mp hk))
  have hlook := fun k => lookup_saveCall time delta hctx hin k
  refine ⟨fun k => ?_, fun k => ?_, fun k => ?_⟩
  · rw [Dict.mem_iff_lookup, Dict.mem_iff_lookup, (hlook k).1, (hlook k).2]
    by_cases hk : k ∈ m.keyName <;> simp [hk]
  · rw [(hlook k).1, (hlook k).2, hbase k]
    by_cases hk : k ∈ m.keyName
    · simp [hk]
    · have hb : base.lookup k = none :=
        AList.lookup_eq_none.mpr (fun hc => hk ((hnames k).mpr (Or.inl hc)))
      simp [hk, hb]
  · rw [Dict.mem_iff_lookup, (hlook k).1, hbase k, ← Option.isSome_iff_exists,
      Dict.mem_iff_lookup (d := base), Dict.mem_iff_lookup (d := item),
      ← Option.isSome_iff_exists, ← Option.isSome_iff_exists]
    by_cases hk : k ∈ m.keyName
    · rw [if_pos hk, Option.isSome_or, Bool.or_eq_true]
      rw [hnames, Dict.mem_iff_lookup, ← Option.isSome_iff_exists] at hk
      constructor
      · rintro (h | h)
        · rcases hk with hk | hk
          · exact Or.inl hk
          · exact Or.inr ⟨hk, h⟩
        · exact Or.inl h
      · rintro (h | h)
        · exact Or.inr h
        · exact Or.inl h.2
    · rw [if_neg hk]
      rw [hnames, Dict.mem_iff_lookup, ← Option.isSome_iff_exists, not_or] at hk
      simp [hk]

/-! ## The loop over the contexts and their items -/

section Recorded

variable {σ ρ : Type} (b : Backend σ ρ)

/-- The items of a context are saved one after the other, whatever `save` does. -/
theorem runItems_recorded (time : Value) (m : ItemMeta) (ctx : Context) (delta : Option Int)
    (items : List Item) (log : List SaveCall) (s : σ) :
    ∃ out s', runItems b.recorded.hooks time m ctx delta items (log, s)
      = (out, (log ++ items.map (saveCall time m delta ctx), s')) := by
  induction items generalizing log s with
  | nil => exact ⟨[], s, by simp [runItems]⟩
  | cons i is ih =>
    obtain ⟨out, s', h⟩ := ih (log ++ [saveCall time m delta ctx i])
      (b.save (saveCall time m delta ctx i) s).2
    rw [List.append_assoc, List.singleton_append, ← List.map_cons] at h
    unfold runItems
    simp only [Backend.hooks, Backend.recorded, _processTask] at h ⊢
    cases (b.save (saveCall time m delta ctx i) s).1 with
    | ok r => exact ⟨r :: out, s', by simp only [h]⟩
    | error e => exact ⟨out, s', by simp only [h]⟩

/-- A context that `pre_bulk_process` accepts has all its items saved. -/
theorem runContext_recorded
    (hpre : ∀ t m c d s, (b.preBulkProcess t m c d s).1 = .ok true)
    (time : Value) (m : ItemMeta) (delta : Option Int) (p : Context × List Item)
    (log : List SaveCall) (s : σ) :
    ∃ out s', runContext b.recorded.hooks time m delta p (log, s)
      = (out, (log ++ p.2.map (saveCall time m delta p.1), s')) := by
  obtain ⟨out, s', h⟩ := runItems_recorded b time m p.1 delta p.2 log
    (b.preBulkProcess time m p.1 p.2 s).2
  have hpre' : b.recorded.hooks.preBulkProcess time m p.1 p.2 (log, s)
      = (.ok true, log, (b.preBulkProcess time m p.1 p.2 s).2) := by
    show ((b.preBulkProcess time m p.1 p.2 s).1, _, _) = _
    rw [hpre]
  have hpost : ∀ l t, b.recorded.hooks.postBulkProcess time m p.1 (l, t)
      = ((b.postBulkProcess time m p.1 t).1, l, (b.postBulkProcess time m p.1 t).2) :=
    fun _ _ => rfl
  unfold runContext
  rw [hpre']
  simp only [if_true, h, hpost]
  cases (b.postBulkProcess time m p.1 s').1 with
  | ok more => exact ⟨out ++ more, _, rfl⟩
  | error e => exact ⟨out, _, rfl⟩

theorem runContexts_recorded
    (hpre : ∀ t m c d s, (b.preBulkProcess t m c d s).1 = .ok true)
    (time : Value) (m : ItemMeta) (delta : Option Int) (ps : List (Context × List Item))
    (log : List SaveCall) (s : σ) :
    ∃ out s', runContexts b.recorded.hooks time m delta ps (log, s)
      = (out, (log ++ callsOf time m delta ps, s')) := by
  induction ps generalizing log s with
  | nil => exact ⟨[], s, by simp [runContexts, callsOf]⟩
  | cons p ps ih =>
    obtain ⟨out₁, s₁, h₁⟩ := runContext_recorded b hpre time m delta p log s
    obtain ⟨out₂, s₂, h₂⟩ := ih (log ++ p.2.map (saveCall time m delta p.1)) s₁
    refine ⟨out₁ ++ out₂, s₂, ?_⟩
    unfold runContexts
    simp only [h₁, h₂]
    rw [callsOf, callsOf, List.flatMap_cons, List.append_assoc]

end Recorded

/-! ## Conservation -/

/-- The contexts that the items of a message give: the base context with the values that
the item has for its fields. -/
def IsItemContext (base : Context) (items : List Item) (c : Context) : Prop :=
  ∃ i ∈ items, ∀ k, c.lookup k = if k ∈ base then (i.lookup k).or (base.lookup k) else none

theorem isItemContext_extractContext {base base' : Context} (h : Dict.Same base' base)
    {items : List Item} {i : Item} (hi : i ∈ items) :
    IsItemContext base items (extractContext base' i).1 := by
  refine ⟨i, hi, fun k => ?_⟩
  unfold extractContext
  rw [lookup_moveKeys_fst, h k]
  simp only [← AList.mem_keys, h.mem_iff k]
  by_cases hk : k ∈ base
  · rw [if_pos hk, if_pos hk]
  · rw [if_neg hk, if_neg hk, AList.lookup_eq_none.mpr hk]

/-- The calls of `save` for a message that `_extract` accepts: one for each item, and the
calls with one resulting context stand in the order of their items. -/
theorem extract_extractable (kv : Context → κ) (o : IterOrder) (ttd : Bool) {this : Message}
    {m : Meta} {group spec : String} {ctx : Context} {time : Value} {data : Data}
    {items : List Item} (hex : Extractable this m group spec ctx time data items)
    (htime : ttd = true → utcfromtimestamp time = .ok time)
    (hkv : Faithful kv (IsItemContext (baseContext (gatheredContext this m ctx) group) items)) :
    ∃ m' contexts, extract kv o ttd this = .ok (time, m', contexts)
      ∧ (m'.group = bareGroup group ∧ m'.spec = spec ∧ m'.flags = m.flags
        ∧ ∀ k, k ∈ m'.keyName
          ↔ indexNames m (baseContext (gatheredContext this m ctx) group) k)
      ∧ ∀ delta, ∃ calls : List SaveCall,
        List.Forall₂ (fun i call => call.time = time ∧ call.meta' = m'
          ∧ Conserves (baseContext (gatheredContext this m ctx) group)
            (fun k => k ∈ m.keyName.elim [] KeyName.names) i call) items calls
        ∧ (callsOf time m' delta contexts).Perm calls
        ∧ ∀ c : Context,
          (callsOf time m' delta contexts).filter (fun x => decide (Dict.Same x.context c))
            = calls.filter (fun x => decide (Dict.Same x.context c)) := by
  obtain ⟨indexes, base, hext, hbase, hindexes⟩ := _extract_extractable ttd hex htime
  set l := items.map (extractContext base) with hl
  set m' : ItemMeta := ⟨bareGroup group, spec, indexes, m.flags⟩ with hm'
  refine ⟨m', (o.order (l.foldl (addItem kv) ∅).items).map Prod.snd, ?_,
    ⟨rfl, rfl, rfl, hindexes⟩, fun delta => ?_⟩
  · unfold extract
    rw [hext]
    simp only [Except.ok_bind, hex.items_eq, Option.elim_some, pure_bind]
    rfl
  -- the items of the list `l` have contexts that `kv` tells apart
  have hP : ∀ p ∈ l, IsItemContext (baseContext (gatheredContext this m ctx) group) items p.1 := by
    intro p hp
    obtain ⟨i, hi, rfl⟩ := List.mem_map.mp hp
    exact isItemContext_extractContext hbase hi
  obtain ⟨qs, hqs, hcover, hcalls⟩ := callsOf_grouped kv o time m' delta l
  set call : Context × Item → SaveCall :=
    fun p => saveCall time m' delta (classContext kv l p.1) p.2 with hcall
  -- an item is saved under the context of its class, which is its own
  have hsame : ∀ p ∈ l, Dict.Same (classContext kv l p.1) p.1 := fun p hp =>
    classContext_same hkv hP hp
  have hin : ∀ k, k ∈ base → k ∈ m'.keyName := fun k hk =>
    (hindexes k).mpr (Or.inl ((hbase.mem_iff k).mp hk))
  refine ⟨l.map call, ?_, ?_, ?_⟩
  · rw [hl, List.forall₂_map_right_iff, List.forall₂_map_right_iff]
    refine List.forall₂_same.mpr (fun i hi => ⟨rfl, rfl, ?_⟩)
    exact saveCall_conserves time delta hbase
      (hsame _ (List.mem_map_of_mem hi)) (fun k => hindexes k)
  · rw [hcalls]
    exact (Dict.flatMap_filter_perm (fun p : Context × Item => kv p.1) qs hqs l hcover).map call
  · intro c
    rw [hcalls, List.filter_map, List.filter_map]
    -- all calls with the context `c` come from one class, that of `c` cut to the base
    have hclass : ∀ p ∈ l, Dict.Same (call p).context c →
        ∀ k, p.1.lookup k = if k ∈ base then c.lookup k else none := by
      intro p hp hpc k
      obtain ⟨i, hi, rfl⟩ := List.mem_map.mp hp
      have hk := (lookup_saveCall time delta (hsame _ hp) hin k).1
      have hpk : (call (extractContext base i)).context.lookup k = c.lookup k := hpc k
      rw [hcall] at hpk
      simp only at hpk
      rw [hk] at hpk
      rw [← hpk]
      unfold extractContext
      rw [lookup_moveKeys_fst]
      simp only [← AList.mem_keys]
      by_cases hb : k ∈ base
      · rw [if_pos hb, if_pos hb, if_pos (hin k hb)]
      · rw [if_neg hb, if_neg hb, AList.lookup_eq_none.mpr hb]
    by_cases hex' : ∃ p₀ ∈ l, Dict.Same (call p₀).context c
    · obtain ⟨p₀, hp₀, hc₀⟩ := hex'
      rw [Dict.filter_flatMap_filter (fun p : Context × Item => kv p.1) _ (kv p₀.1) qs hqs l
        hcover]
      intro p hp hpc
      refine (hkv p.1 p₀.1 (hP p hp) (hP p₀ hp₀)).mpr (fun k => ?_)
      rw [hclass p hp (of_decide_eq_true hpc) k, hclass p₀ hp₀ hc₀ k]
    · push Not at hex'
      have hnone : ∀ p ∈ l, ¬ ((fun x : SaveCall => decide (Dict.Same x.context c)) ∘ call) p
          = true := fun p hp hc => hex' p hp (of_decide_eq_true hc)
      rw [List.filter_eq_nil_iff.mpr hnone, List.filter_eq_nil_iff.mpr (by
        intro p hp
        obtain ⟨q, _, hpq⟩ := List.mem_flatMap.mp hp
        exact hnone p (List.mem_of_mem_filter hpq))]

/-- A message that `extract` accepts is processed context by context. -/
theorem processTask_of_extract {σ ρ : Type} {kv : Context → κ} {o : IterOrder}
    {ttd : Bool} (h : Hooks σ ρ) {this : Message} {m : Meta} {data : Data} {time : Value}
    {m' : ItemMeta} {contexts : List (Context × List Item)} (hdata : this.data = some data)
    (hmeta : this._meta = some m)
    (hext : extract kv o ttd this = .ok (time, m', contexts)) (s : σ) :
    processTask kv o ttd h this s = .ok (runContexts h time m' m.archiveAfter contexts s) := by
  unfold processTask
  rw [hdata, hmeta]
  simp only [Option.isNone_some, Bool.or_self, Bool.false_eq_true, if_false, Option.bind_some]
  rw [hext]
  rfl

/-- A message that a feeder can store: `_extract` accepts it, and no key name is that of a
top-level field of the message. -/
structure WellFormed (this : Message) (m : Meta) (group spec : String) (ctx : Context)
    (time : Value) (data : Data) (items : List Item) : Prop where
  extractable : Extractable this m group spec ctx time data items
  keyNames_fresh : ∀ k ∈ m.keyName.elim [] KeyName.names, k ∈ ctx ∨ this.has k = false

/-- The context of a well-formed message has its own fields only. -/
theorem gatheredContext_same {this : Message} {m : Meta} {group spec : String} {ctx : Context}
    {time : Value} {data : Data} {items : List Item}
    (hwf : WellFormed this m group spec ctx time data items) :
    Dict.Same (gatheredContext this m ctx) ctx := by
  intro k
  rw [gatheredContext, Dict.lookup_overlay, Dict.lookup_restrict]
  cases hk : ctx.lookup k with
  | some v => rfl
  | none =>
    rw [Option.none_or]
    by_cases hname : k ∈ m.keyName.elim [] KeyName.names
    · have hctx : k ∉ ctx := AList.lookup_eq_none.mp hk
      have hplain := (hwf.extractable.keyNames_plain k hname).resolve_left hctx
      have hhas := (hwf.keyNames_fresh k hname).resolve_left hctx
      simp only [reserved, List.mem_cons, List.not_mem_nil, or_false, not_or] at hplain
      obtain ⟨h₁, h₂, h₃, h₄⟩ := hplain
      unfold Message.has at hhas
      rw [if_neg h₁, if_neg h₂, if_neg h₃, if_neg h₄] at hhas
      rw [AList.lookup_eq_none.mpr (of_decide_eq_false hhas), ite_self]
    · rw [if_neg (by simpa using hname)]

theorem baseContext_congr {ctx ctx' : Context} (h : Dict.Same ctx ctx') (group : String) :
    Dict.Same (baseContext ctx group) (baseContext ctx' group) := by
  intro k
  unfold baseContext
  cases subGroup group with
  | none => exact h k
  | some p => simp only [Dict.lookup_insert_eq, h k]

theorem Conserves.congr {base base' : Context} (h : Dict.Same base base')
    {names : String → Prop} {item : Item} {call : SaveCall} (hc : Conserves base names item call) :
    Conserves base' names item call where
  disjoint := hc.disjoint
  union := fun k => by rw [hc.union, h k]
  context_keys := fun k => by rw [hc.context_keys, h.mem_iff k]

theorem IsItemContext.congr {base base' : Context} (h : Dict.Same base base')
    {items : List Item} {c : Context} (hc : IsItemContext base items c) :
    IsItemContext base' items c := by
  obtain ⟨i, hi, hk⟩ := hc
  refine ⟨i, hi, fun k => ?_⟩
  rw [hk]
  simp only [h.mem_iff k, h k]

/-- **Conservation.**  A feeder whose backend accepts every context calls `save` exactly
once for each item of a well-formed message, whatever `save` does and whatever
order the contexts are visited in; the item's fields are split between context
and data as `Conserves` says, and calls with one context keep the order of
their items. -/
theorem processTask_conserves {σ ρ : Type} (kv : Context → κ) (o : IterOrder) (ttd : Bool)
    (b : Backend σ ρ) (hpre : ∀ t m c d s, (b.preBulkProcess t m c d s).1 = .ok true)
    {this : Message} {m : Meta} {group spec : String} {ctx : Context} {time : Value}
    {data : Data} {items : List Item}
    (hwf : WellFormed this m group spec ctx time data items)
    (htime : ttd = true → utcfromtimestamp time = .ok time)
    (hkv : Faithful kv (IsItemContext (baseContext ctx group) items)) (s : σ) :
    ∃ out s' log calls,
      processTask kv o ttd b.recorded.hooks this ([], s) = .ok (out, (log, s'))
      ∧ List.Forall₂ (Conserves (baseContext ctx group)
          (fun k => k ∈ m.keyName.elim [] KeyName.names)) items calls
      ∧ log.Perm calls
      ∧ ∀ c : Context, log.filter (fun x => decide (Dict.Same x.context c))
          = calls.filter (fun x => decide (Dict.Same x.context c)) := by
  have hsame : Dict.Same (baseContext (gatheredContext this m ctx) group)
      (baseContext ctx group) := baseContext_congr (gatheredContext_same hwf) group
  obtain ⟨m', contexts, hext, -, hcalls⟩ := extract_extractable kv o ttd hwf.extractable htime
    (fun c c' hc hc' => hkv c c' (hc.congr hsame) (hc'.congr hsame))
  obtain ⟨calls, hforall, hperm, hfilter⟩ := hcalls m.archiveAfter
  obtain ⟨out, s', hrun⟩ := runContexts_recorded b hpre time m' m.archiveAfter contexts [] s
  refine ⟨out, s', callsOf time m' m.archiveAfter contexts, calls, ?_, ?_, hperm, hfilter⟩
  · rw [processTask_of_extract b.recorded.hooks hwf.extractable.data_eq hwf.extractable.meta_eq
      hext, hrun, List.nil_append]
  · exact hforall.imp (fun i call h => h.2.2.congr hsame)

/-! ## A concrete message -/

/-- One rendering of a context as text: `key=value` in key order, with commas between. -/
def dictToKv (c : Context) : String :=
  Text.join "," ((Dict.sortedKeys c).map
    (fun k => k ++ "=" ++ ((c.lookup k).map Value.toText).getD ""))

theorem dictToKv_congr {c c' : Context} (h : Dict.Same c c') : dictToKv c = dictToKv c' := by
  unfold dictToKv
  rw [h.sortedKeys_eq]
  congr 1
  apply List.map_congr_left
  intro k _
  rw [h k]

/-- A rendering tells contexts apart as soon as it does so for one representative of
each. -/
theorem faithful_dictToKv {P : Context → Prop} (reps : List Context)
    (hP : ∀ c, P c → ∃ r ∈ reps, Dict.Same c r)
    (h : ∀ r ∈ reps, ∀ r' ∈ reps, dictToKv r = dictToKv r' → Dict.Same r r') :
    Faithful dictToKv P := by
  intro c c' hc hc'
  obtain ⟨r, hr, hcr⟩ := hP c hc
  obtain ⟨r', hr', hcr'⟩ := hP c' hc'
  refine ⟨fun hkv => ?_, dictToKv_congr⟩
  rw [dictToKv_congr hcr, dictToKv_congr hcr'] at hkv
  exact (hcr.trans (h r hr r' hr' hkv)).trans hcr'.symm

/-- The contexts of the items of a message, as `extract_context` builds them. -/
theorem IsItemContext.exists_same {base : Context} {items : List Item} {c : Context}
    (h : IsItemContext base items c) :
    ∃ r ∈ items.map (fun i => (extractContext base i).1), Dict.Same c r := by
  obtain ⟨i, hi, hc⟩ := h
  refine ⟨_, List.mem_map_of_mem hi, fun k => ?_⟩
  unfold extractContext
  rw [hc k, lookup_moveKeys_fst]
  simp only [← AList.mem_keys]
  by_cases hk : k ∈ base
  · rw [if_pos hk, if_pos hk]
  · rw [if_neg hk, if_neg hk, AList.lookup_eq_none.mpr hk]

/-- Spanning tree entries of vlan 5: the second names the device by its address. -/
def vlanMessage : Message where
  _meta := some { group := some "neighbour@vlan=5", spec := some "spanning_tree",
                  keyName := some (.many ["port", "device"]) }
  context := some (Dict.ofList [("device", .str "swh-b050f3")])
  timestamp := some (.int 100)
  data := some (.list [Dict.ofList [("port", .str "1/1"), ("cost", .int 4)],
    Dict.ofList [("device", .str "134.79.1.1"), ("port", .str "1/2"), ("cost", .int 19)]])

/-- A storage backend that always fails. -/
def failingBackend : Backend Unit Unit where
  save := fun _ s => (.error (.exception "could not connect"), s)

theorem vlanMessage_wellFormed :
    WellFormed vlanMessage
      { group := some "neighbour@vlan=5", spec := some "spanning_tree",
        keyName := some (.many ["port", "device"]) }
      "neighbour@vlan=5" "spanning_tree" (Dict.ofList [("device", .str "swh-b050f3")])
      (.int 100)
      (.list [Dict.ofList [("port", .str "1/1"), ("cost", .int 4)],
        Dict.ofList [("device", .str "134.79.1.1"), ("port", .str "1/2"), ("cost", .int 19)]])
      [Dict.ofList [("port", .str "1/1"), ("cost", .int 4)],
        Dict.ofList [("device", .str "134.79.1.1"), ("port", .str "1/2"), ("cost", .int 19)]]
      where
  extractable :=
    { meta_eq := rfl
      group_eq := rfl
      spec_eq := rfl
      context_eq := rfl
      timestamp_eq := rfl
      data_eq := rfl
      items_eq := rfl
      group_form := by decide
      keyNames_plain := by decide
      subGroup_plain := by
        intro k v h
        have hkv : subGroup "neighbour@vlan=5" = some ("vlan", .int 5) := by decide
        rw [hkv] at h
        cases h
        decide }
  keyNames_fresh := by decide

/-- Conservation for `vlanMessage`: both items are handed over, although saving fails. -/
theorem processTask_conserves_vlanMessage :
    ∃ out s' log calls,
      processTask dictToKv IterOrder.reversed true failingBackend.recorded.hooks vlanMessage
          ([], ()) = .ok (out, (log, s'))
      ∧ List.Forall₂ (Conserves
          (baseContext (Dict.ofList [("device", .str "swh-b050f3")]) "neighbour@vlan=5")
          (fun k => k ∈ ["port", "device"]))
        [Dict.ofList [("port", .str "1/1"), ("cost", .int 4)],
          Dict.ofList [("device", .str "134.79.1.1"), ("port", .str "1/2"), ("cost", .int 19)]]
        calls
      ∧ log.Perm calls
      ∧ ∀ c : Context, log.filter (fun x => decide (Dict.Same x.context c))
          = calls.filter (fun x => decide (Dict.Same x.context c)) :=
  processTask_conserves dictToKv IterOrder.reversed true failingBackend
    (fun _ _ _ _ _ => rfl) vlanMessage_wellFormed (fun _ => rfl)
    (faithful_dictToKv _ (fun _ h => h.exists_same) (by decide)) ()

end Feeder
