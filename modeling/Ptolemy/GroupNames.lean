/-
# The names of sub-groups

A poller that iterates over a variable, or a post map that moves records to a new
group, names the group `<group>@<field>=<value>`; `_extract` splits the name of the
group of each message again.  The text of the value is not escaped: this round trip
works for exactly the values whose text has no `=` and reads back as the value, and
for the fields that are no structured entry of a message (`roundTrips_iff`).
-/
import Ptolemy.FeederConservation
import Ptolemy.PostRemap

/-! ## Writing the names -/

namespace Gatherer

/-- The name of the results of one iteration. -/
def iterativeName (g var : String) (val : Value) : String :=
  g ++ "@" ++ var ++ "=" ++ val.toText

/-- The results of the iterations, under their names, beside those of the other groups. -/
def addIterative {ρ : Type} (groupIgnore : List String) (var : String) (res : Dict String ρ)
    (iterRes : List (Value × Dict String ρ)) : Dict String ρ :=
  iterRes.foldl (fun res p => p.2.items.foldl (fun res q =>
    if q.1 ∈ groupIgnore then res else AList.insert (iterativeName q.1 var p.1) q.2 res) res) res

/-- One iteration adds the names of its groups. -/
theorem mem_addItems {ρ : Type} {groupIgnore : List String} {var name : String} {val : Value}
    {items : List (String × ρ)} {res : Dict String ρ} :
    name ∈ items.foldl (fun res q =>
        if q.1 ∈ groupIgnore then res else AList.insert (iterativeName q.1 var val) q.2 res) res ↔
      name ∈ res ∨ ∃ g r, (g, r) ∈ items ∧ g ∉ groupIgnore ∧ name = iterativeName g var val := by
  induction items generalizing res with
  | nil => simp
  | cons q items ih =>
    rw [List.foldl_cons, ih]
    by_cases hq : q.1 ∈ groupIgnore
    · rw [if_pos hq]
      apply or_congr_right
      constructor
      · rintro ⟨g, r, hmem, hg⟩
        exact ⟨g, r, List.mem_cons_of_mem q hmem, hg⟩
      · rintro ⟨g, r, hmem, hg, hname⟩
        rcases List.mem_cons.mp hmem with rfl | hmem
        · exact absurd hq hg
        · exact ⟨g, r, hmem, hg, hname⟩
    · rw [if_neg hq, AList.mem_insert]
      constructor
      · rintro ((rfl | hres) | ⟨g, r, hmem, hg⟩)
        · exact Or.inr ⟨q.1, q.2, List.mem_cons_self, hq, rfl⟩
        · exact Or.inl hres
        · exact Or.inr ⟨g, r, List.mem_cons_of_mem q hmem, hg⟩
      · rintro (hres | ⟨g, r, hmem, hg, hname⟩)
        · exact Or.inl (Or.inr hres)
        · rcases List.mem_cons.mp hmem with rfl | hmem
          · exact Or.inl (Or.inl hname)
          · exact Or.inr ⟨g, r, hmem, hg, hname⟩

/-- The groups after the iterations: those before, and one for each group of an iteration. -/
theorem mem_addIterative {ρ : Type} {groupIgnore : List String} {var name : String}
    {res : Dict String ρ} {iterRes : List (Value × Dict String ρ)} :
    name ∈ addIterative groupIgnore var res iterRes ↔
      name ∈ res ∨ ∃ val results g, (val, results) ∈ iterRes ∧ g ∈ results ∧ g ∉ groupIgnore
        ∧ name = iterativeName g var val := by
  unfold addIterative
  induction iterRes generalizing res with
  | nil => simp
  | cons p iterRes ih =>
    rw [List.foldl_cons, ih, mem_addItems, or_assoc]
    apply or_congr_right
    constructor
    · rintro (⟨g, r, hmem, hg, hname⟩ | ⟨val, results, g, hmem, hg⟩)
      · exact ⟨p.1, p.2, g, List.mem_cons_self,
          Dict.mem_iff_lookup.mpr ⟨r, Dict.mem_items.mp hmem⟩, hg, hname⟩
      · exact ⟨val, results, g, List.mem_cons_of_mem p hmem, hg⟩
    · rintro ⟨val, results, g, hmem, hg, hignore, hname⟩
      rcases List.mem_cons.mp hmem with rfl | hmem
      · obtain ⟨r, hr⟩ := Dict.mem_iff_lookup.mp hg
        exact Or.inl ⟨g, r, Dict.mem_items.mpr hr, hignore, hname⟩
      · exact Or.inr ⟨val, results, g, hmem, hg, hignore, hname⟩

/-- A poller names a group for a value of a field of the group `g`: as a result of the iteration
for the value, or by the post map. -/
inductive Named (g f : String) (v : Value) : String → Prop where
  | iterated {ρ : Type} (groupIgnore : List String) (r : ρ) (name : String) :
      name ∈ addIterative groupIgnore f ∅ [(v, AList.insert g r ∅)] → Named g f v name
  | posted (env : Driver.Env) (w w' : Driver.World) (d d' : Driver.Ref) (name : String)
      (ys : List (Option (String × Driver.Ref))) :
      (w.records d).lookup f = some v →
        Driver.step env g d w (.post_new_group_from_field (some f)) = .ok (ys, w') →
          some (name, d') ∈ ys → Named g f v name

variable {g f name : String} {v : Value}

/-- Both write the name alike. -/
theorem Named.eq (h : Named g f v name) : name = iterativeName g f v := by
  cases h with
  | iterated groupIgnore r _ hmem =>
    rcases mem_addIterative.mp hmem with hempty | ⟨val, results, g', hval, hg', -, hname⟩
    · exact absurd hempty (AList.notMem_empty name)
    · obtain ⟨rfl, rfl⟩ := Prod.mk.inj (List.mem_singleton.mp hval)
      rcases (AList.mem_insert _).mp hg' with rfl | hempty
      · exact hname
      · exact absurd hempty (AList.notMem_empty g')
  | posted env w w' d d' _ ys hv hstep hmem =>
    simp only [Driver.step, hv] at hstep
    obtain ⟨rfl, -⟩ := Prod.mk.inj (Except.ok.inj hstep)
    exact (Prod.mk.inj (Option.some.inj (List.mem_singleton.mp hmem))).1

theorem named_iterativeName (g f : String) (v : Value) : Named g f v (iterativeName g f v) :=
  .iterated [] () _ (mem_addIterative.mpr (Or.inr ⟨v, AList.insert g () ∅, g,
    List.mem_singleton_self _, (AList.mem_insert _).mpr (Or.inl rfl), List.not_mem_nil, rfl⟩))

end Gatherer

/-! ## Reading them -/

/-- A value with decimal integer text as the integer. -/
def Value.normalised : Value → Value
  | .str s => .ofText s
  | v => v

/-- The same message for another group. -/
def Message.withGroup (this : Message) (group : String) : Message :=
  { this with _meta := this._meta.map (fun m => { m with group := some group }) }

namespace Feeder

/-- The name of a group is read as the group and a value of a field: a message that would be
accepted with the plain group is accepted with the name, and only gets the pair in addition. -/
def RoundTrips (g f : String) (v : Value) (name : String) : Prop :=
  ∀ (ttd : Bool) (this : Message) (time : Value) (m : ItemMeta) (ctx : Context) (data : Data),
    _extract ttd (this.withGroup g) = .ok (time, m, ctx, data) →
      m.group = g ∧ _extract ttd (this.withGroup name)
        = .ok (time, { m with keyName := m.keyName ++ [f] }, AList.insert f v.normalised ctx, data)

/-- The text of the value has no `=` and reads back as the value, and the field is not an entry of
the message that is still needed. -/
def Decodable (f : String) (v : Value) : Prop :=
  '=' ∉ v.toText.toList ∧ ((∃ s, v = .str s) ∨ ∃ n, v = .int n)
    ∧ f ∉ ["_meta", "data", "timestamp"]

/-! ## The splitting -/

section split

variable {g f : String} {v : Value}

/-- The name splits at the first `@`. -/
theorem partition_iterativeName (hg : '@' ∉ g.toList) :
    Text.partition '@' (Gatherer.iterativeName g f v) = (g, true, f ++ "=" ++ v.toText) := by
  have hlist : (Gatherer.iterativeName g f v).toList
      = g.toList ++ '@' :: (f ++ "=" ++ v.toText).toList := by
    simp [Gatherer.iterativeName]
  have hpos : ∀ c ∈ g.toList, (decide (c ≠ '@')) = true :=
    fun c hc => decide_eq_true (fun h => hg (h ▸ hc))
  rw [Text.partition, hlist, List.takeWhile_append_of_pos hpos, List.dropWhile_append_of_pos hpos,
    List.takeWhile_cons_of_neg (by simp), List.dropWhile_cons_of_neg (by simp), List.append_nil,
    List.drop_one, List.tail_cons, String.ofList_toList, String.ofList_toList]
  simp

theorem at_mem_iterativeName : '@' ∈ (Gatherer.iterativeName g f v).toList := by
  simp [Gatherer.iterativeName]

theorem split_pair (hf : '=' ∉ f.toList) (s : String) :
    Text.split '=' (f ++ "=" ++ s) = f :: Text.split '=' s := by
  have hlist : (f ++ "=" ++ s).toList = f.toList ++ '=' :: s.toList := by
    rw [String.toList_append, String.toList_append, List.append_assoc]
    rfl
  rw [Text.split, hlist, Text.splitChars_append_cons _ hf, List.map_cons, String.ofList_toList,
    Text.split]

theorem split_of_notMem {c : Char} {s : String} (h : c ∉ s.toList) : Text.split c s = [s] := by
  rw [Text.split, Text.splitChars_of_notMem h, List.map_singleton, String.ofList_toList]

/-- A text with the separator has two pieces or more. -/
theorem split_of_mem {c : Char} {s : String} (h : c ∈ s.toList) :
    ∃ a b l, Text.split c s = a :: b :: l := by
  obtain ⟨l, r, hl, hc⟩ := List.eq_append_cons_of_mem h
  rw [Text.split, hl, Text.splitChars_append_cons r hc]
  cases hr : Text.splitChars c r with
  | nil => exact absurd hr (Text.splitChars_ne_nil c r)
  | cons b l' => exact ⟨_, _, _, rfl⟩

end split

/-! ## A message for two groups -/

section withGroup

variable {this : Message} {g name : String}

def Extracting.withGroup (st : Extracting) (group : String) : Extracting :=
  { st with this := st.this.withGroup group }

theorem has_withGroup (i : String) : (this.withGroup g).has i = this.has i := by
  unfold Message.has Message.withGroup
  rw [Option.isSome_map]

theorem pop_withGroup (i : String) :
    (this.withGroup g).pop i = (this.pop i).map (fun p => (p.1, p.2.withGroup g)) := by
  unfold Message.pop
  rw [has_withGroup]
  split_ifs <;> rfl

/-- The names of `key_name` are gathered alike for both groups. -/
theorem takeKeyName_withGroup (st : Extracting) (i : String) :
    takeKeyName (Extracting.withGroup st g) i = Extracting.withGroup (takeKeyName st i) g := by
  unfold takeKeyName Extracting.withGroup
  simp only [pop_withGroup]
  split_ifs
  · rfl
  · cases st.this.pop i <;> rfl

theorem foldl_takeKeyName_withGroup (ks : List String) (st : Extracting) :
    ks.foldl takeKeyName (Extracting.withGroup st g)
      = Extracting.withGroup (ks.foldl takeKeyName st) g := by
  induction ks generalizing st with
  | nil => rfl
  | cons k ks ih => rw [List.foldl_cons, takeKeyName_withGroup, ih, List.foldl_cons]

/-- What `_extract` does when it has split the group. -/
def finish (ttd : Bool) (spec : String) (flags : Flags) (st : Extracting) :
    Except Exn (Value × ItemMeta × Context × Data) := do
  let group ← (st.this._meta.bind Meta.group).elim (throw (.keyError "group")) pure
  let timestamp ← st.this.timestamp.elim
    (throw (.typeError "exceptions must be old-style classes or derived from BaseException")) pure
  let timestamp ← if ttd then utcfromtimestamp timestamp else pure timestamp
  let _ ← st.this.context.elim (throw (.keyError "context")) pure
  let data ← st.this.data.elim (throw (.keyError "data")) pure
  pure (timestamp, ⟨group, spec, st.indexes, flags⟩, st.kwargs, data)

theorem _extract_withGroup (ttd : Bool) {m : Meta} {spec : String} {ctx : Context}
    (hm : this._meta = some m) (hspec : m.spec = some spec) (hctx : this.context = some ctx)
    (g : String) :
    _extract ttd (this.withGroup g)
      = takeSubGroup (Extracting.withGroup ((m.keyName.elim [] KeyName.names).foldl takeKeyName
          (startExtract this ctx)) g) >>= finish ttd spec m.flags := by
  rw [← foldl_takeKeyName_withGroup]
  have hmeta : (this.withGroup g)._meta = some { m with group := some g } := by
    rw [Message.withGroup, hm]
    rfl
  have hcontext : (this.withGroup g).context = some ctx := hctx
  unfold _extract
  rw [hmeta, hcontext]
  simp only [Option.elim_some, pure_bind, hspec]
  rfl

/-- A message that is accepted for some group has its other entries. -/
theorem entries_of_extract {ttd : Bool} {r : Value × ItemMeta × Context × Data}
    (h : _extract ttd (this.withGroup g) = .ok r) :
    ∃ m spec ctx, this._meta = some m ∧ m.spec = some spec ∧ this.context = some ctx := by
  unfold _extract at h
  cases hm : this._meta with
  | none =>
    rw [Message.withGroup, hm] at h
    cases h
  | some m =>
    cases hspec : m.spec with
    | none =>
      rw [Message.withGroup, hm] at h
      simp only [Option.map_some, Option.elim_some, pure_bind, hspec] at h
      cases h
    | some spec =>
      cases hctx : this.context with
      | none =>
        rw [Message.withGroup, hm] at h
        simp only [Option.map_some, Option.elim_some, pure_bind, hspec, hctx] at h
        cases h
      | some ctx => exact ⟨m, spec, ctx, rfl, hspec, rfl⟩

end withGroup

/-! ## The round trip -/

section roundTrip

variable {g f : String} {v : Value}

theorem takeSubGroup_plain (hg : '@' ∉ g.toList) {st : Extracting} {m : Meta}
    (hm : st.this._meta = some m) :
    takeSubGroup (Extracting.withGroup st g) = .ok (Extracting.withGroup st g) := by
  unfold takeSubGroup Extracting.withGroup Message.withGroup
  simp only [hm, Option.map_some, if_neg hg]
  rfl

/-- A name with a value that has the separator is refused. -/
theorem takeSubGroup_of_mem (hg : '@' ∉ g.toList) (hf : '=' ∉ f.toList)
    (hv : '=' ∈ v.toText.toList) (st : Extracting) :
    ∃ e, takeSubGroup (Extracting.withGroup st (Gatherer.iterativeName g f v)) = .error e := by
  obtain ⟨a, b, l, hsplit⟩ := split_of_mem hv
  unfold takeSubGroup Extracting.withGroup Message.withGroup
  cases st.this._meta with
  | none => exact ⟨_, rfl⟩
  | some m =>
    simp only [Option.map_some, if_pos at_mem_iterativeName, partition_iterativeName hg,
      split_pair hf, hsplit]
    exact ⟨_, rfl⟩

/-- A name with another value gives the pair, and the message an entry. -/
theorem takeSubGroup_of_notMem (hg : '@' ∉ g.toList) (hf : '=' ∉ f.toList)
    (hv : '=' ∉ v.toText.toList) {st : Extracting} {m : Meta} (hm : st.this._meta = some m) :
    takeSubGroup (Extracting.withGroup st (Gatherer.iterativeName g f v))
      = if f = "_meta" then .error (if st.this.has "group"
          then .exception "iterative group message is not of required format"
          else .keyError "group")
        else .ok { this := (st.this.set f (.ofText v.toText)).withGroup g
                   kwargs := st.kwargs.insert f (.ofText v.toText)
                   indexes := st.indexes ++ [f] } := by
  unfold takeSubGroup Extracting.withGroup
  have hname : (st.this.withGroup (Gatherer.iterativeName g f v))._meta
      = some { m with group := some (Gatherer.iterativeName g f v) } := by
    rw [Message.withGroup, hm]
    rfl
  simp only [hname, if_pos at_mem_iterativeName, partition_iterativeName hg,
    split_pair hf, split_of_notMem hv, has_withGroup]
  unfold Message.set Message.withGroup
  split_ifs <;> simp only [hm, Option.map_some] <;> rfl

theorem elim_eq_ok {α : Type} {o : Option α} {e : Exn} {a : α} :
    (o.elim (throw e) pure : Except Exn α) = .ok a ↔ o = some a := by
  cases o with
  | none => exact iff_of_false (fun h => by cases h) (Option.some_ne_none a).symm
  | some b => exact ⟨fun h => congrArg some (Except.ok.inj h),
      fun h => congrArg Except.ok (Option.some.inj h)⟩

/-- What the end of `_extract` needs, and what it gives. -/
theorem finish_eq_ok_iff {ttd : Bool} {spec : String} {flags : Flags} {st : Extracting}
    {time : Value} {m : ItemMeta} {ctx : Context} {data : Data} :
    finish ttd spec flags st = .ok (time, m, ctx, data) ↔
      (∃ group, st.this._meta.bind Meta.group = some group
        ∧ m = ⟨group, spec, st.indexes, flags⟩)
      ∧ (∃ t, st.this.timestamp = some t
        ∧ (if ttd then utcfromtimestamp t else pure t) = .ok time)
      ∧ (∃ c, st.this.context = some c) ∧ st.this.data = some data ∧ ctx = st.kwargs := by
  have hpure : ∀ {r : Value × ItemMeta × Context × Data},
      (pure r : Except Exn _) = .ok (time, m, ctx, data) ↔
        r.1 = time ∧ r.2.1 = m ∧ r.2.2.1 = ctx ∧ r.2.2.2 = data := by
    intro r
    obtain ⟨_, _, _, _⟩ := r
    simp [pure, Except.pure]
  unfold finish
  cases ttd <;>
    simp only [Bool.false_eq_true, if_false, if_true, Except.bind_eq_ok, elim_eq_ok, hpure]
  all_goals
    constructor
    · rintro ⟨group, hgroup, t, ht, time', htime, c, hc, d, hd, rfl, rfl, rfl, rfl⟩
      exact ⟨⟨group, hgroup, rfl⟩, ⟨t, ht, htime⟩, ⟨c, hc⟩, hd, rfl⟩
    · rintro ⟨⟨group, hgroup, rfl⟩, ⟨t, ht, htime⟩, ⟨c, hc⟩, hd, rfl⟩
      exact ⟨group, hgroup, t, ht, time, htime, c, hc, data, hd, rfl, rfl, rfl, rfl⟩

/-- An entry for a field other than these three leaves what `_extract` still needs. -/
theorem set_entries (this : Message) (x : Value) (hf : f ∉ ["_meta", "data", "timestamp"]) :
    (this.set f x)._meta = this._meta ∧ (this.set f x).data = this.data
      ∧ (this.set f x).timestamp = this.timestamp
      ∧ ((∃ c, this.context = some c) → ∃ c, (this.set f x).context = some c) := by
  simp only [List.mem_cons, List.not_mem_nil, or_false, not_or] at hf
  obtain ⟨hmeta, hdata, htimestamp⟩ := hf
  unfold Message.set
  rw [if_neg hmeta, if_neg hdata, if_neg htimestamp]
  split_ifs
  · exact ⟨rfl, rfl, rfl, fun _ => ⟨_, rfl⟩⟩
  · exact ⟨rfl, rfl, rfl, fun h => h⟩

theorem ofText_toText (h : (∃ s, v = .str s) ∨ ∃ n, v = .int n) :
    Value.ofText v.toText = v.normalised := by
  rcases h with ⟨s, rfl⟩ | ⟨n, rfl⟩
  · rfl
  · rw [Value.toText, Value.ofText, Text.int?_toString]
    rfl

/-- What is read is a text or an integer. -/
theorem ofText_cases (s : String) :
    (∃ s', Value.ofText s = .str s') ∨ ∃ n, Value.ofText s = .int n := by
  unfold Value.ofText
  split
  · right; exact ⟨_, rfl⟩
  · left; exact ⟨_, rfl⟩

theorem ofText_ne_none (s : String) : Value.ofText s ≠ .none := by
  intro h
  rcases ofText_cases s with ⟨s', hs⟩ | ⟨n, hn⟩
  · rw [hs] at h; cases h
  · rw [hn] at h; cases h

/-- Only texts and integers read back. -/
theorem of_ofText_toText (h : Value.ofText v.toText = v.normalised) :
    (∃ s, v = .str s) ∨ ∃ n, v = .int n := by
  have hcases := ofText_cases v.toText
  rw [h] at hcases
  cases v with
  | str s => left; exact ⟨s, rfl⟩
  | none | bool b | int n | float t | list l => exact hcases

theorem roundTrips_of_decodable (hg : '@' ∉ g.toList) (hf : '=' ∉ f.toList)
    (h : Decodable f v) : RoundTrips g f v (Gatherer.iterativeName g f v) := by
  obtain ⟨hv, hkind, hfield⟩ := h
  have hmeta : f ≠ "_meta" := fun heq => hfield (by rw [heq]; exact List.mem_cons_self)
  intro ttd this time m ctx data hplain
  obtain ⟨m₀, spec, ctx₀, hm₀, hspec, hctx⟩ := entries_of_extract hplain
  rw [_extract_withGroup ttd hm₀ hspec hctx] at hplain ⊢
  generalize (m₀.keyName.elim [] KeyName.names).foldl takeKeyName (startExtract this ctx₀) = st
    at hplain ⊢
  -- the plain message was read, so its meta is there and the sub-group can be set beside it
  cases hst : st.this._meta with
  | none =>
    unfold takeSubGroup Extracting.withGroup Message.withGroup at hplain
    rw [hst] at hplain
    cases hplain
  | some m₁ =>
    rw [takeSubGroup_plain hg hst, Except.ok_bind, finish_eq_ok_iff] at hplain
    obtain ⟨⟨group, hgroup, rfl⟩, ⟨t, ht, htime⟩, hcontext, hdata, rfl⟩ := hplain
    obtain ⟨hset₁, hset₂, hset₃, hset₄⟩ := set_entries st.this (.ofText v.toText) hfield
    have hgroup' : group = g := by
      unfold Extracting.withGroup Message.withGroup at hgroup
      rw [hst] at hgroup
      exact (Option.some.inj hgroup).symm
    refine ⟨hgroup', ?_⟩
    rw [takeSubGroup_of_notMem hg hf hv hst, if_neg hmeta, Except.ok_bind, finish_eq_ok_iff,
      ← ofText_toText hkind]
    refine ⟨⟨group, ?_, rfl⟩, ⟨t, hset₃.trans ht, htime⟩, hset₄ hcontext, hset₂.trans hdata, rfl⟩
    rw [Message.withGroup, hset₁, hst, hgroup']
    rfl

/-- Of this message only the group counts. -/
def bareMessage : Message :=
  { _meta := some { spec := some "ports" }, context := some ∅, data := some (.dict ∅),
    timestamp := some .none }

theorem decodable_of_roundTrips (hg : '@' ∉ g.toList) (hf : '=' ∉ f.toList)
    (h : RoundTrips g f v (Gatherer.iterativeName g f v)) : Decodable f v := by
  have hplain : _extract false (bareMessage.withGroup g)
      = .ok (.none, ⟨g, "ports", [], {}⟩, ∅, .dict ∅) := by
    rw [_extract_withGroup false rfl rfl rfl, takeSubGroup_plain hg rfl]
    rfl
  obtain ⟨-, hname⟩ := h false bareMessage _ _ _ _ hplain
  rw [_extract_withGroup false rfl rfl rfl] at hname
  -- the three ways to fail: a separator in the value, a reserved field, a value of another kind
  by_cases hv : '=' ∈ v.toText.toList
  · obtain ⟨e, he⟩ := takeSubGroup_of_mem hg hf hv (startExtract bareMessage ∅)
    have herror := (congrArg (· >>= finish false "ports" {}) he).symm.trans hname
    cases herror
  · have hst : (startExtract bareMessage ∅).this._meta = some { spec := some "ports" } := rfl
    have htake := takeSubGroup_of_notMem hg hf hv hst
    have hfinish := (congrArg (· >>= finish false "ports" {}) htake).symm.trans hname
    by_cases hmeta : f = "_meta"
    · rw [if_pos hmeta] at hfinish
      cases hfinish
    · simp only [if_neg hmeta, Except.ok_bind, finish_eq_ok_iff] at hfinish
      obtain ⟨-, ⟨t, ht, htime⟩, -, hdata, hctx⟩ := hfinish
      refine ⟨hv, ?_, ?_⟩
      · have hlookup := congrArg (AList.lookup f) hctx
        rw [AList.lookup_insert, AList.lookup_insert] at hlookup
        exact of_ofText_toText (Option.some.inj hlookup).symm
      · intro hmem
        rcases List.mem_cons.mp hmem with h | hmem
        · exact hmeta h
        · rcases List.mem_cons.mp hmem with rfl | hmem
          · cases hdata
          · obtain rfl := List.mem_singleton.mp hmem
            obtain rfl : Value.ofText v.toText = t := Option.some.inj ht
            exact ofText_ne_none _ (Except.ok.inj htime)

end roundTrip

/-- **The round trip**: the name that a poller gives a sub-group is read back as the group and the
value of the field if and only if the value is decodable. -/
theorem roundTrips_iff {g f name : String} {v : Value} (hg : '@' ∉ g.toList) (hf : '=' ∉ f.toList)
    (hname : Gatherer.Named g f v name) : RoundTrips g f v name ↔ Decodable f v := by
  rw [hname.eq]
  exact ⟨decodable_of_roundTrips hg hf, roundTrips_of_decodable hg hf⟩

/-- A VLAN. -/
theorem roundTrips_vlan :
    RoundTrips "mac_address" "vlan" (.str "32") "mac_address@vlan=32"
      ∧ RoundTrips "mac_address" "vlan" (.int 32) "mac_address@vlan=32" :=
  ⟨(roundTrips_iff (by decide) (by decide)
      (Gatherer.named_iterativeName "mac_address" "vlan" (.str "32"))).mpr
        ⟨by decide, Or.inl ⟨_, rfl⟩, by decide⟩,
    (roundTrips_iff (by decide) (by decide)
      (Gatherer.named_iterativeName "mac_address" "vlan" (.int 32))).mpr
        ⟨by decide, Or.inr ⟨_, rfl⟩, by decide⟩⟩

/-- A message of a poller with a sub-group for an alias of a port. -/
def aliasMessage (name : String) : Message :=
  { _meta := some { group := some name, spec := some "ports", keyName := some (.many ["port"]) },
    context := some (AList.insert "device" (.str "rtr-core1") ∅), data := some (.list []),
    timestamp := some (.int 100) }

/-- A value with `=`: the name is `ports@alias=to=core`, and its message is rejected. -/
theorem not_roundTrips_alias :
    Gatherer.Named "ports" "alias" (.str "to=core") "ports@alias=to=core"
      ∧ (_extract true (aliasMessage "ports")).isOk
      ∧ (_extract true (aliasMessage "ports@alias=to=core")).isOk = false
      ∧ ¬ RoundTrips "ports" "alias" (.str "to=core") "ports@alias=to=core" := by
  refine ⟨Gatherer.named_iterativeName "ports" "alias" (.str "to=core"), by decide,
    by decide, fun h => ?_⟩
  exact absurd (decodable_of_roundTrips (by decide) (by decide) h).1 (by decide)

end Feeder
