/-
# Limits of alerts

An alert that was sent is kept in a cache under a key made of its parameters, with the time at
which it was sent, and expires after its limit.  `AlertWorkerManager.alert` does not send an
alert while the cache holds its key and the limit has not passed.

The cache is shared by all alerts.  `rateLimited_run` is about alerts with keys of their own.
`justified_iff` says for which alerts a suppressed one was sent before: the key leaves out the
names in the context, does not mark colons in the values, and keeps a few digits of two hashes.
-/
import Ptolemy.AlertStanzas
import Ptolemy.Run

/-! ## Pieces of a text -/

namespace Text

/-- What stands around a separator has its own pieces. -/
theorem splitChars_append (c : Char) (l r : List Char) :
    splitChars c (l ++ c :: r) = splitChars c l ++ splitChars c r := by
  induction l with
  | nil =>
    have hhead : splitChars c (c :: r) = [] :: splitChars c r := by rw [splitChars, if_pos rfl]
    exact hhead
  | cons x l ih =>
    rw [List.cons_append]
    by_cases hx : x = c
    · rw [splitChars, if_pos hx, splitChars, if_pos hx, ih, List.cons_append]
    · rw [splitChars, if_neg hx, splitChars, if_neg hx, ih]
      cases hl : splitChars c l with
      | nil => exact absurd hl (splitChars_ne_nil c l)
      | cons p ps => rfl

/-- The pieces determine the text. -/
theorem splitChars_injective (c : Char) : Function.Injective (splitChars c) := by
  have hback : ∀ l, List.intercalate [c] (splitChars c l) = l := by
    intro l
    induction l with
    | nil => rfl
    | cons x l ih =>
      by_cases hx : x = c
      · rw [splitChars, if_pos hx]
        cases hl : splitChars c l with
        | nil => exact absurd hl (splitChars_ne_nil c l)
        | cons p ps =>
          rw [hl] at ih
          rw [List.intercalate_cons_cons, ih, hx]
          rfl
      · rw [splitChars, if_neg hx]
        cases hl : splitChars c l with
        | nil => exact absurd hl (splitChars_ne_nil c l)
        | cons p ps =>
          rw [hl] at ih
          cases ps with
          | nil => exact congrArg (x :: ·) ih
          | cons q ps =>
            rw [List.intercalate_cons_cons] at ih ⊢
            exact congrArg (x :: ·) ih
  intro l r h
  rw [← hback l, h, hback r]

theorem split_injective (c : Char) : Function.Injective (split c) := by
  intro s t h
  have hlist : splitChars c s.toList = splitChars c t.toList :=
    List.map_injective_iff.mpr (fun _ _ h => String.ofList_injective h) h
  exact String.toList_inj.mp (splitChars_injective c hlist)

theorem split_append (s t : String) : split ':' (s ++ ":" ++ t) = split ':' s ++ split ':' t := by
  unfold split
  rw [String.toList_append, String.toList_append, List.append_assoc,
    show ":".toList ++ t.toList = ':' :: t.toList from rfl, splitChars_append, List.map_append]

/-- The pieces of a joined text are those of its parts; no part leaves one empty piece. -/
theorem split_join_pieces {l : List String} (h : l ≠ []) :
    split ':' (join ":" l) = l.flatMap (split ':') := by
  induction l with
  | nil => exact absurd rfl h
  | cons s l ih =>
    cases l with
    | nil => rw [join, List.flatMap_cons, List.flatMap_nil, List.append_nil]
    | cons t l =>
      rw [join, ← String.append_assoc, split_append, ih (List.cons_ne_nil t l)]
      exact List.flatMap_cons.symm

theorem toString_injective : Function.Injective (toString : ℤ → String) := by
  intro a b h
  have hback := congrArg int? h
  rw [int?_toString, int?_toString] at hback
  exact Option.some.inj hback

/-- The text of a number is one piece. -/
theorem split_toString (z : ℤ) : split ':' (toString z) = [toString z] := by
  rw [split, splitChars_of_notMem (notMem_toString (by decide) (by decide) z), List.map_singleton,
    String.ofList_toList]

end Text

namespace AlertLimits

/-! ## Keys -/

/-- What a call of `alert` is about: the method, the stanza and its conditions, the context of the
message, and the recipients. -/
structure Instance : Type where
  method : String
  name : String
  context : Dict String Value
  conditions : List Value
  notificationTo : Option Value

/-- The same alert: contexts are equal as maps. -/
def Same (a b : Instance) : Prop :=
  a.method = b.method ∧ a.name = b.name ∧ a.context.Same b.context ∧ a.conditions = b.conditions
    ∧ a.notificationTo = b.notificationTo

instance (a b : Instance) : Decidable (Same a b) :=
  inferInstanceAs (Decidable (_ ∧ _ ∧ _ ∧ _ ∧ _))

/-- `hash(s)`, and the text of a list of conditions. -/
structure Env : Type where
  hash : String → ℤ
  str : List Value → String

variable (env : Env)

/-- The texts of the values of a context, in the order of its keys. -/
def contextTexts (context : Dict String Value) : List String :=
  context.sortedKeys.map (fun k => ((context.lookup k).getD .none).toText)

/-- `abs(hash("%s" % condition)) % (10**4)`. -/
def conditionBucket (a : Instance) : ℤ := |env.hash (env.str a.conditions)| % 10 ^ 4

/-- `abs(hash('%s-%s' % (method,notification_to))) % (10**2)`. -/
def recipientBucket (a : Instance) : ℤ :=
  |env.hash (a.method ++ "-" ++ (a.notificationTo.getD (.str "-")).toText)| % 10 ^ 2

def cacheKey (a : Instance) : String :=
  "pt:a:" ++ Text.join ":" (contextTexts a.context) ++ ":" ++ toString (conditionBucket env a)
    ++ ":" ++ a.name ++ ":" ++ toString (recipientBucket env a)

/-- The values of a context, cut at their colons. -/
def valuePieces (context : Dict String Value) : List String :=
  if contextTexts context = [] then [""] else (contextTexts context).flatMap (Text.split ':')

/-- **Alerts that the key does not tell apart**: the values of the contexts, the bucket of the
conditions and the names, cut at colons and put one after the other, are the same, and so is
the bucket of the recipients. -/
def Confusable (a b : Instance) : Prop :=
  valuePieces a.context ++ toString (conditionBucket env a) :: Text.split ':' a.name
      = valuePieces b.context ++ toString (conditionBucket env b) :: Text.split ':' b.name
    ∧ recipientBucket env a = recipientBucket env b

theorem split_cacheKey (a : Instance) :
    Text.split ':' (cacheKey env a) = "pt" :: "a" :: (valuePieces a.context
      ++ toString (conditionBucket env a) :: Text.split ':' a.name)
      ++ [toString (recipientBucket env a)] := by
  have hcontext : Text.split ':' ("pt:a:" ++ Text.join ":" (contextTexts a.context))
      = "pt" :: "a" :: valuePieces a.context := by
    rw [show "pt:a:" = "pt:a" ++ ":" from rfl, Text.split_append]
    unfold valuePieces
    split_ifs with h
    · rw [h]
      rfl
    · rw [Text.split_join_pieces h]
      rfl
  unfold cacheKey
  rw [Text.split_append, Text.split_append, Text.split_append, hcontext, Text.split_toString,
    Text.split_toString]
  simp only [List.cons_append, List.append_assoc, List.nil_append]

/-- **Keys**: two alerts have one key just when it does not tell them apart. -/
theorem cacheKey_eq_iff (a b : Instance) :
    cacheKey env a = cacheKey env b ↔ Confusable env a b := by
  rw [← (Text.split_injective ':').eq_iff, split_cacheKey, split_cacheKey]
  unfold Confusable
  constructor
  · intro h
    obtain ⟨hfront, hlast⟩ := List.append_inj' h rfl
    exact ⟨(List.cons.inj (List.cons.inj hfront).2).2,
      Text.toString_injective (List.cons.inj hlast).1⟩
  · rintro ⟨hfront, hlast⟩
    rw [hfront, hlast]

/-- Equal contexts have the same texts. -/
theorem Same.cacheKey_eq {a b : Instance} (h : Same a b) : cacheKey env a = cacheKey env b := by
  obtain ⟨hmethod, hname, hcontext, hconditions, hto⟩ := h
  have htexts : contextTexts a.context = contextTexts b.context := by
    unfold contextTexts
    rw [hcontext.sortedKeys_eq]
    exact List.map_congr_left (fun k _ => by rw [hcontext k])
  unfold cacheKey conditionBucket recipientBucket
  rw [htexts, hconditions, hname, hmethod, hto]

/-- No colons in the name and in the values. -/
def Plain (a : Instance) : Prop :=
  ':' ∉ a.name.toList ∧ ∀ s ∈ contextTexts a.context, ':' ∉ s.toList

theorem split_of_notMem {s : String} (h : ':' ∉ s.toList) : Text.split ':' s = [s] := by
  rw [Text.split, Text.splitChars_of_notMem h, List.map_singleton, String.ofList_toList]

theorem Plain.valuePieces_eq {a : Instance} (h : Plain a) : valuePieces a.context
    = if contextTexts a.context = [] then [""] else contextTexts a.context := by
  unfold valuePieces
  split_ifs with hnil
  · rfl
  · rw [List.flatMap_congr (fun s hs => split_of_notMem (h.2 s hs)), List.flatMap_singleton']

/-- Without colons, alerts are confusable whose values, names and buckets are the same; no value
is like one empty value. -/
theorem confusable_iff_of_plain {a b : Instance} (ha : Plain a) (hb : Plain b) :
    Confusable env a b ↔ valuePieces a.context = valuePieces b.context ∧ a.name = b.name
      ∧ conditionBucket env a = conditionBucket env b
      ∧ recipientBucket env a = recipientBucket env b := by
  unfold Confusable
  rw [split_of_notMem ha.1, split_of_notMem hb.1]
  constructor
  · rintro ⟨hfront, hlast⟩
    obtain ⟨hvalues, htail⟩ := List.append_inj' hfront rfl
    obtain ⟨hbucket, hname⟩ := List.cons.inj htail
    exact ⟨hvalues, (List.cons.inj hname).1, Text.toString_injective hbucket, hlast⟩
  · rintro ⟨hvalues, hname, hbucket, hlast⟩
    exact ⟨by rw [hvalues, hname, hbucket], hlast⟩

/-! ## Calls -/

/-- One call of `alert`: the limit, if the options have one, the time, and whether the method
raises. -/
structure Call : Type where
  inst : Instance
  limit : Option ℚ
  t_now : ℚ
  raises : Bool := false

inductive Outcome : Type where
  | suppressed
  | sent
  | raised
  deriving DecidableEq, Repr

/-- What the cache holds for a key: the time of the alert, which `float` reads back from its text,
and the time at which it expires. -/
structure Entry : Type where
  value : ℚ
  expires : ℚ

/-- The cache, and beside it the calls so far with what became of them. -/
structure State : Type where
  cache : Dict String Entry := ∅
  log : List (Call × Outcome) := []

/-- `cache.get`; an entry is kept for exactly its expiry time. -/
def State.get (s : State) (k : String) (t_now : ℚ) : Option ℚ :=
  (s.cache.lookup k).bind (fun e => if t_now < e.expires then some e.value else none)

/-- `int(limit)`. -/
def trunc (limit : ℚ) : ℤ := if 0 ≤ limit then ⌊limit⌋ else ⌈limit⌉

/-- `cache.setex`, which refuses an expiry time that is not positive. -/
def State.setex (s : State) (k : String) (expiry : ℤ) (t_now : ℚ) : Dict String Entry :=
  if 0 < expiry then s.cache.insert k ⟨t_now, t_now + expiry⟩ else s.cache

/-- The time that is left until the alert may be sent again; `None` has no time, and is caught. -/
def temper (s : State) (c : Call) : Option ℚ :=
  c.limit.bind (fun limit =>
    if limit = 0 then none
    else (s.get (cacheKey env c.inst) c.t_now).bind (fun t =>
      if t + limit > c.t_now then some (t + limit - c.t_now) else none))

def alert (s : State) (c : Call) : State :=
  match temper env s c with
  | some _ => { s with log := s.log ++ [(c, .suppressed)] }
  | none =>
    if c.raises then { s with log := s.log ++ [(c, .raised)] }
    else ⟨match c.limit with
        | none => s.cache
        | some limit =>
          if limit = 0 then s.cache
          else s.setex (cacheKey env c.inst) (trunc limit) c.t_now,
      s.log ++ [(c, .sent)]⟩

/-- The state after the calls, from an empty cache. -/
def after (cs : List Call) : State := Run.run (alert env) {} cs

theorem after_append (cs : List Call) (c : Call) :
    after env (cs ++ [c]) = alert env (after env cs) c := Run.run_append _ _ _

/-- What becomes of a call. -/
def outcome (s : State) (c : Call) : Outcome :=
  if (temper env s c).isSome then .suppressed else if c.raises then .raised else .sent

/-- The cache after an alert is sent. -/
def State.noted (s : State) (c : Call) : Dict String Entry :=
  match c.limit with
  | none => s.cache
  | some limit =>
    if limit = 0 then s.cache else s.setex (cacheKey env c.inst) (trunc limit) c.t_now

/-- **Step lemma**: a call is logged, and changes the cache only where it is sent. -/
theorem alert_eq (s : State) (c : Call) :
    alert env s c = ⟨if outcome env s c = .sent then s.noted env c else s.cache,
      s.log ++ [(c, outcome env s c)]⟩ := by
  unfold alert outcome State.noted
  cases temper env s c with
  | some left => rfl
  | none => cases c.raises <;> rfl

theorem outcome_eq_suppressed {s : State} {c : Call} :
    outcome env s c = .suppressed ↔ (temper env s c).isSome = true := by
  unfold outcome
  split_ifs <;> simp_all

theorem outcome_of_ne {s : State} {c : Call} (h : outcome env s c ≠ .suppressed) :
    outcome env s c = if c.raises then .raised else .sent := by
  have htemper : ¬ (temper env s c).isSome = true := fun hs =>
    h ((outcome_eq_suppressed env).mpr hs)
  exact if_neg htemper

/-- Every call is in the log. -/
theorem log_after (cs : List Call) : (after env cs).log.map Prod.fst = cs := by
  induction cs using List.reverseRecOn with
  | nil => rfl
  | append_singleton cs c ih =>
    rw [after_append, alert_eq, List.map_append, ih]
    rfl

/-- An alert is suppressed while the cache holds its key and the limit has not passed. -/
theorem temper_isSome_iff {s : State} {c : Call} : (temper env s c).isSome ↔
    ∃ limit e, c.limit = some limit ∧ limit ≠ 0
      ∧ s.cache.lookup (cacheKey env c.inst) = some e ∧ c.t_now < e.expires
      ∧ c.t_now < e.value + limit := by
  unfold temper State.get
  constructor
  · intro h
    obtain ⟨left, hleft⟩ := Option.isSome_iff_exists.mp h
    obtain ⟨limit, hlimit, hleft⟩ := Option.bind_eq_some_iff.mp hleft
    split_ifs at hleft with hzero
    obtain ⟨t, ht, hleft⟩ := Option.bind_eq_some_iff.mp hleft
    obtain ⟨e, he, ht⟩ := Option.bind_eq_some_iff.mp ht
    split_ifs at ht with hexpires
    obtain rfl := Option.some.inj ht
    split_ifs at hleft with hlt
    exact ⟨limit, e, hlimit, hzero, he, hexpires, hlt⟩
  · rintro ⟨limit, e, hlimit, hzero, he, hexpires, hlt⟩
    rw [hlimit, Option.bind_some, if_neg hzero, he, Option.bind_some, if_pos hexpires,
      Option.bind_some, if_pos hlt]
    rfl

/-! ## Suppressed alerts -/

/-- **Suppression is justified**: each alert that is suppressed was itself sent before, and its
limit has not passed since. -/
def Justified (log : List (Call × Outcome)) : Prop :=
  ∀ pre e, pre ++ [e] <+: log → e.2 = .suppressed →
    ∃ e' ∈ pre, e'.2 = .sent ∧ Same e'.1.inst e.1.inst
      ∧ ∃ limit, e.1.limit = some limit ∧ e.1.t_now < e'.1.t_now + limit

/-- What the cache holds comes from an alert that was sent. -/
def Kept (s : State) : Prop :=
  ∀ k entry, s.cache.lookup k = some entry →
    ∃ e ∈ s.log, e.2 = .sent ∧ cacheKey env e.1.inst = k ∧ entry.value = e.1.t_now

theorem kept_alert (s : State) (c : Call) (h : Kept env s) : Kept env (alert env s c) := by
  rw [alert_eq]
  intro k entry hentry
  dsimp only at hentry ⊢
  have hold : s.cache.lookup k = some entry → ∃ e ∈ s.log ++ [(c, outcome env s c)],
      e.2 = .sent ∧ cacheKey env e.1.inst = k ∧ entry.value = e.1.t_now := fun hs => by
    obtain ⟨e, he, hsent⟩ := h k entry hs
    exact ⟨e, List.mem_append_left _ he, hsent⟩
  unfold State.noted State.setex at hentry
  split_ifs at hentry with hsent
  · cases hlimit : c.limit with
    | none =>
      rw [hlimit] at hentry
      exact hold hentry
    | some limit =>
      simp only [hlimit] at hentry
      split_ifs at hentry with hzero hpos
      · exact hold hentry
      · rw [Dict.lookup_insert_eq] at hentry
        split_ifs at hentry with hk
        · -- the entry of this call
          obtain rfl := Option.some.inj hentry
          exact ⟨_, List.mem_append_right _ (List.mem_singleton_self _), hsent, hk.symm, rfl⟩
        · exact hold hentry
      · exact hold hentry
  · exact hold hentry

theorem kept_after (cs : List Call) : Kept env (after env cs) :=
  (Run.Always.of_step (kept_alert env) (fun k entry h => by cases h) cs).last

/-- What is said of each call with those before it is said of the last one and of the others. -/
theorem forall_prefix_concat {α : Type} {P : List α → α → Prop} {l : List α} {a : α} :
    (∀ pre e, pre ++ [e] <+: l ++ [a] → P pre e)
      ↔ (∀ pre e, pre ++ [e] <+: l → P pre e) ∧ P l a := by
  constructor
  · exact fun h => ⟨fun pre e hpre => h pre e (hpre.trans (List.prefix_append l [a])),
      h l a (List.prefix_refl _)⟩
  · rintro ⟨h, ha⟩ pre e hpre
    rcases List.prefix_concat_iff.mp hpre with heq | hpre
    · obtain ⟨rfl, hlast⟩ := List.append_inj' heq rfl
      obtain rfl := (List.cons.inj hlast).1
      exact ha
    · exact h pre e hpre

/-- One alert, and another one in the same second. -/
def pair (a b : Instance) : List Call := [⟨a, some 1, 0, false⟩, ⟨b, some 1, 0, false⟩]

/-- The first alert is sent and noted. -/
theorem alert_start (a : Instance) : alert env {} ⟨a, some 1, 0, false⟩
    = ⟨(∅ : Dict String Entry).insert (cacheKey env a) ⟨0, 0 + (1 : ℤ)⟩,
        [(⟨a, some 1, 0, false⟩, .sent)]⟩ := by
  have htrunc : trunc 1 = 1 := by decide
  have hsent : outcome env {} ⟨a, some 1, 0, false⟩ = .sent := by
    refine outcome_of_ne env (fun h => ?_)
    obtain ⟨_, e, -, -, he, -⟩ := (temper_isSome_iff env).mp ((outcome_eq_suppressed env).mp h)
    rw [AList.lookup_empty] at he
    cases he
  have hnoted : State.noted env {} ⟨a, some 1, 0, false⟩
      = (∅ : Dict String Entry).insert (cacheKey env a) ⟨0, 0 + (1 : ℤ)⟩ := by
    rw [State.noted]
    dsimp only
    rw [if_neg one_ne_zero, State.setex, htrunc, if_pos one_pos]
  rw [alert_eq, if_pos hsent, hsent, hnoted, List.nil_append]

/-- The second of two alerts with one key is suppressed. -/
theorem log_pair {a b : Instance} (h : Confusable env a b) : (after env (pair a b)).log
    = [(⟨a, some 1, 0, false⟩, .sent)] ++ [(⟨b, some 1, 0, false⟩, .suppressed)] := by
  have hsecond : (temper env (alert env {} ⟨a, some 1, 0, false⟩)
      ⟨b, some 1, 0, false⟩).isSome := by
    rw [temper_isSome_iff, alert_start]
    refine ⟨1, ⟨0, 0 + (1 : ℤ)⟩, rfl, one_ne_zero, ?_, by norm_num, by norm_num⟩
    rw [(cacheKey_eq_iff env a b).mpr h, AList.lookup_insert]
  have hpair : after env (pair a b)
      = alert env (alert env {} ⟨a, some 1, 0, false⟩) ⟨b, some 1, 0, false⟩ := by
    rw [after, pair, Run.run_cons, Run.run_cons, Run.run, List.foldl_nil]
  rw [hpair, alert_eq, (outcome_eq_suppressed env).mpr hsecond, alert_start]

/-- It is suppressed for no reason where the two are different. -/
theorem not_justified_pair {a b : Instance} (h : Confusable env a b) (hne : ¬ Same a b) :
    ¬ Justified (after env (pair a b)).log := by
  intro hjust
  rw [log_pair env h] at hjust
  obtain ⟨e, he, -, hsame, -⟩ := hjust _ _ (List.prefix_refl _) rfl
  rw [List.mem_singleton.mp he] at hsame
  exact hne hsame

/-- **No false suppression**: every run of alerts from `S` suppresses only what was sent before if
and only if no two different ones of them are confusable. -/
theorem justified_iff (S : Set Instance) :
    (∀ cs : List Call, (∀ c ∈ cs, c.inst ∈ S) → Justified (after env cs).log)
      ↔ ∀ a ∈ S, ∀ b ∈ S, Confusable env a b → Same a b := by
  constructor
  · intro h a ha b hb hconf
    by_contra hne
    refine not_justified_pair env hconf hne (h _ (fun c hc => ?_))
    rcases List.mem_cons.mp hc with rfl | hc
    · exact ha
    · rw [List.mem_singleton.mp hc]
      exact hb
  · intro h cs
    induction cs using List.reverseRecOn with
    | nil => exact fun _ pre e hpre => absurd (List.prefix_nil.mp hpre) (by simp)
    | append_singleton cs c ih =>
      intro hS
      have hSc : ∀ c ∈ cs, c.inst ∈ S := fun c' hc' => hS c' (List.mem_append_left _ hc')
      unfold Justified
      rw [after_append, alert_eq, forall_prefix_concat]
      refine ⟨ih hSc, fun hsuppressed => ?_⟩
      have htemper := (outcome_eq_suppressed env).mp hsuppressed
      obtain ⟨limit, entry, hlimit, -, hentry, -, hlt⟩ := (temper_isSome_iff env).mp htemper
      obtain ⟨e, he, hsent, hkey, hvalue⟩ := kept_after env cs _ entry hentry
      have hmem : e.1 ∈ cs := by
        rw [← log_after env cs]
        exact List.mem_map_of_mem he
      refine ⟨e, he, hsent, ?_, limit, hlimit, by rw [← hvalue]; exact hlt⟩
      exact h e.1.inst (hSc e.1 hmem) c.inst
        (hS c (List.mem_append_right _ (List.mem_singleton_self c)))
        ((cacheKey_eq_iff env _ _).mp hkey)

/-- A context of one value. -/
def deviceDown (key value : String) : Instance where
  method := "email"
  name := "down"
  context := Dict.ofList [(key, .str value)]
  conditions := [.bool true]
  notificationTo := none

/-- The buckets of these are the same, whatever `hash` is. -/
def flatEnv : Env := ⟨fun s => s.length, fun l => toString l.length⟩

/-- The alert for a peer is suppressed for the one for a device of the same name, and so is the
one for a device whose name has a colon where another one's name ends. -/
theorem not_justified_names :
    ¬ Justified (after flatEnv (pair (deviceDown "device" "sw1") (deviceDown "peer" "sw1"))).log
      ∧ ¬ Justified (after flatEnv (pair
        ⟨"email", "down", Dict.ofList [("device", .str "sw1:1"), ("port", .str "2")], [], none⟩
        ⟨"email", "down", Dict.ofList [("device", .str "sw1"), ("port", .str "1:2")], [], none⟩)).log :=
  ⟨not_justified_pair flatEnv ⟨by decide, by decide⟩ (by decide),
    not_justified_pair flatEnv ⟨by decide, by decide⟩ (by decide)⟩

/-! ## The rate -/

/-- The last call that sent an alert. -/
def lastSend (log : List (Call × Outcome)) (a : Instance) : Option Call :=
  ((log.filter (fun e => e.2 = .sent ∧ Same e.1.inst a)).getLast?).map Prod.fst

/-- **The limit is kept**: an alert is not sent twice within its limit, and a call at least that
long after the last send is sent, unless its method raises. -/
structure RateLimited (log : List (Call × Outcome)) : Prop where
  apart : log.Pairwise (fun e e' => e.2 = .sent → e'.2 = .sent → Same e.1.inst e'.1.inst →
    ∀ limit, e'.1.limit = some limit → e.1.t_now + limit ≤ e'.1.t_now)
  answered : ∀ pre e, pre ++ [e] <+: log →
    (∀ c, lastSend pre e.1.inst = some c → ∀ limit, e.1.limit = some limit →
      c.t_now + limit ≤ e.1.t_now) →
    e.2 = if e.1.raises then .raised else .sent

/-- Calls in the order of their times, of alerts with keys of their own, each with one limit of
whole seconds. -/
structure Interleaved (cs : List Call) : Prop where
  times : cs.Pairwise (fun c c' => c.t_now ≤ c'.t_now)
  keys : ∀ c ∈ cs, ∀ c' ∈ cs, cacheKey env c.inst = cacheKey env c'.inst → Same c.inst c'.inst
  limit : ∀ c ∈ cs, ∃ L : ℕ, 1 ≤ L ∧ c.limit = some (L : ℚ)
  alike : ∀ c ∈ cs, ∀ c' ∈ cs, Same c.inst c'.inst → c.limit = c'.limit

/-- What a call that is sent puts into the cache. -/
def entryOf (c : Call) : Entry := ⟨c.t_now, c.t_now + trunc (c.limit.getD 0)⟩

/-- The cache has the last send for each key. -/
def Current (s : State) : Prop :=
  ∀ k, s.cache.lookup k = ((s.log.filter
    (fun e => e.2 = .sent ∧ cacheKey env e.1.inst = k)).getLast?).map (fun e => entryOf e.1)

theorem trunc_natCast (L : ℕ) : trunc (L : ℚ) = L := by
  unfold trunc
  rw [if_pos (Nat.cast_nonneg L), Int.floor_natCast]

theorem filter_concat_of_neg {α : Type} {P : α → Bool} {l : List α} {a : α} (h : P a = false) :
    (l ++ [a]).filter P = l.filter P := by
  rw [List.filter_append, List.filter_cons_of_neg (by rw [h]; exact Bool.false_ne_true),
    List.filter_nil, List.append_nil]

theorem filter_concat_of_pos {α : Type} {P : α → Bool} {l : List α} {a : α} (h : P a = true) :
    (l ++ [a]).filter P = l.filter P ++ [a] := by
  rw [List.filter_append, List.filter_cons_of_pos h, List.filter_nil]

/-- A call with a limit of whole seconds keeps the cache current. -/
theorem current_alert {s : State} {c : Call} (h : Current env s)
    (hlimit : ∃ L : ℕ, 1 ≤ L ∧ c.limit = some (L : ℚ)) : Current env (alert env s c) := by
  obtain ⟨L, hL, hlimit⟩ := hlimit
  have hnoted : s.noted env c = s.cache.insert (cacheKey env c.inst) (entryOf c) := by
    have hpos : (0 : ℤ) < trunc (L : ℚ) := by
      rw [trunc_natCast]
      omega
    have hne : (L : ℚ) ≠ 0 := by
      rw [Nat.cast_ne_zero]
      omega
    unfold State.noted State.setex entryOf
    rw [hlimit]
    simp only [if_neg hne, if_pos hpos, Option.getD_some]
  rw [alert_eq]
  intro k
  dsimp only
  by_cases hsent : outcome env s c = .sent
  · rw [if_pos hsent, hnoted, Dict.lookup_insert_eq]
    split_ifs with hk
    · rw [filter_concat_of_pos (by simp [hsent, hk]), List.getLast?_concat, Option.map_some]
    · rw [filter_concat_of_neg (by simp [Ne.symm hk]), h k]
  · rw [if_neg hsent, filter_concat_of_neg (by simp [hsent]), h k]

theorem current_after {cs : List Call} (h : ∀ c ∈ cs, ∃ L : ℕ, 1 ≤ L ∧ c.limit = some (L : ℚ)) :
    Current env (after env cs) := by
  induction cs using List.reverseRecOn with
  | nil => exact fun k => rfl
  | append_singleton cs c ih =>
    rw [after_append]
    exact current_alert env (ih (fun c' hc' => h c' (List.mem_append_left _ hc')))
      (h c (List.mem_append_right _ (List.mem_singleton_self c)))

/-- What comes last of a sorted list is the greatest. -/
theorem rel_of_getLast? {α : Type} {R : α → α → Prop} [Std.Refl R] {l : List α} {a b : α}
    (h : l.Pairwise R) (hb : l.getLast? = some b) (ha : a ∈ l) : R a b := by
  obtain ⟨ys, rfl⟩ := List.getLast?_eq_some_iff.mp hb
  rcases List.mem_append.mp ha with ha | ha
  · exact (List.pairwise_append.mp h).2.2 a ha b (List.mem_singleton_self b)
  · rw [List.mem_singleton.mp ha]
    exact Std.Refl.refl b

section Interleaved

variable {cs : List Call} {c : Call}

theorem Interleaved.init (h : Interleaved env (cs ++ [c])) : Interleaved env cs where
  times := (List.pairwise_append.mp h.times).1
  keys := fun a ha b hb =>
    h.keys a (List.mem_append_left _ ha) b (List.mem_append_left _ hb)
  limit := fun a ha => h.limit a (List.mem_append_left _ ha)
  alike := fun a ha b hb =>
    h.alike a (List.mem_append_left _ ha) b (List.mem_append_left _ hb)

/-- The last send of an alert is what the cache has for its key. -/
theorem Interleaved.lookup (h : Interleaved env (cs ++ [c])) :
    (after env cs).cache.lookup (cacheKey env c.inst)
      = (lastSend (after env cs).log c.inst).map entryOf := by
  have hmem : ∀ e ∈ (after env cs).log, e.1 ∈ cs := fun e he => by
    rw [← log_after env cs]
    exact List.mem_map_of_mem he
  rw [current_after env h.init.limit, lastSend, Option.map_map]
  have hsame : (after env cs).log.filter
        (fun e => e.2 = .sent ∧ cacheKey env e.1.inst = cacheKey env c.inst)
      = (after env cs).log.filter (fun e => e.2 = .sent ∧ Same e.1.inst c.inst) := by
    refine List.filter_congr (fun e he => ?_)
    rw [decide_eq_decide]
    refine and_congr_right (fun _ => ⟨fun hk => ?_, fun hs => hs.cacheKey_eq env⟩)
    exact h.keys e.1 (List.mem_append_left _ (hmem e he)) c
      (List.mem_append_right _ (List.mem_singleton_self c)) hk
  rw [hsame]
  rfl

/-- **What becomes of the next call**: it is suppressed just when its limit has not passed since
the last send. -/
theorem Interleaved.suppressed_iff (h : Interleaved env (cs ++ [c])) {limit : ℚ}
    (hlimit : c.limit = some limit) : outcome env (after env cs) c = .suppressed
      ↔ ∃ l, lastSend (after env cs).log c.inst = some l ∧ c.t_now < l.t_now + limit := by
  obtain ⟨L, hL, hc⟩ := h.limit c (List.mem_append_right _ (List.mem_singleton_self c))
  obtain rfl : limit = L := Option.some.inj (hlimit.symm.trans hc)
  have hentry : ∀ l, lastSend (after env cs).log c.inst = some l →
      entryOf l = ⟨l.t_now, l.t_now + (L : ℤ)⟩ := by
    intro l hl
    obtain ⟨e, he, rfl⟩ := Option.map_eq_some_iff.mp hl
    obtain ⟨hlog, hcond⟩ := List.mem_filter.mp (List.mem_of_getLast? he)
    have hmem : e.1 ∈ cs := by
      rw [← log_after env cs]
      exact List.mem_map_of_mem hlog
    have hlike := h.alike e.1 (List.mem_append_left _ hmem) c
      (List.mem_append_right _ (List.mem_singleton_self c)) (of_decide_eq_true hcond).2
    rw [entryOf, hlike, hc, Option.getD_some, trunc_natCast]
  rw [outcome_eq_suppressed, temper_isSome_iff, h.lookup]
  constructor
  · rintro ⟨limit', entry, hlimit', -, hmap, -, hlt⟩
    obtain rfl : limit' = L := Option.some.inj (hlimit'.symm.trans hc)
    obtain ⟨l, hl, rfl⟩ := Option.map_eq_some_iff.mp hmap
    rw [hentry l hl] at hlt
    exact ⟨l, hl, hlt⟩
  · rintro ⟨l, hl, hlt⟩
    refine ⟨L, entryOf l, hc, by rw [Nat.cast_ne_zero]; omega, by rw [hl, Option.map_some], ?_, ?_⟩
    · rw [hentry l hl]
      exact_mod_cast hlt
    · rw [hentry l hl]
      exact hlt

end Interleaved

/-- **Rate limit**: calls in the order of their times, of alerts with keys of their own, keep
their limits, however they are interleaved. -/
theorem rateLimited_run {cs : List Call} (h : Interleaved env cs) :
    RateLimited (after env cs).log := by
  induction cs using List.reverseRecOn with
  | nil => exact ⟨List.Pairwise.nil, fun pre e hpre => absurd (List.prefix_nil.mp hpre) (by simp)⟩
  | append_singleton cs c ih =>
    have ih := ih h.init
    obtain ⟨L, hL, hc⟩ := h.limit c (List.mem_append_right _ (List.mem_singleton_self c))
    have hsuppressed := h.suppressed_iff env hc
    have hsorted : (after env cs).log.Pairwise (fun e e' => e.1.t_now ≤ e'.1.t_now) := by
      have htimes := h.init.times
      rw [← log_after env cs, List.pairwise_map] at htimes
      exact htimes
    rw [after_append, alert_eq]
    refine ⟨List.pairwise_append.mpr ⟨ih.apart, List.pairwise_singleton _ _, ?_⟩,
      forall_prefix_concat.mpr ⟨ih.answered, fun hlate => ?_⟩⟩
    · -- the last send is the latest of those before
      intro e he e' he' hsent hsent' hsame limit hlimit
      rw [List.mem_singleton.mp he'] at hsent' hsame hlimit ⊢
      obtain rfl : limit = L := Option.some.inj (hlimit.symm.trans hc)
      have hin : e ∈ (after env cs).log.filter (fun e => e.2 = .sent ∧ Same e.1.inst c.inst) :=
        List.mem_filter.mpr ⟨he, decide_eq_true ⟨hsent, hsame⟩⟩
      obtain ⟨l, hl⟩ := Option.ne_none_iff_exists'.mp
        (fun hnone => List.ne_nil_of_mem hin (List.getLast?_eq_none_iff.mp hnone))
      have hle : e.1.t_now ≤ l.1.t_now :=
        rel_of_getLast? (R := fun e e' : Call × Outcome => e.1.t_now ≤ e'.1.t_now)
          (hsorted.sublist List.filter_sublist) hl hin
      by_contra hlt
      have hsupp := hsuppressed.mpr ⟨l.1, by rw [lastSend, hl, Option.map_some], by
        dsimp only at hlt
        linarith⟩
      rw [hsupp] at hsent'
      cases hsent'
    · have hnot : outcome env (after env cs) c ≠ .suppressed := fun hs => by
        obtain ⟨l, hl, hlt⟩ := hsuppressed.mp hs
        exact absurd (hlate l hl L hc) (not_le.mpr hlt)
      exact outcome_of_ne env hnot

/-- Two devices, one of them again before and after its limit. -/
def switchCalls : List Call :=
  [⟨deviceDown "device" "sw1", some 60, 0, false⟩, ⟨deviceDown "device" "sw2", some 60, 10, false⟩,
    ⟨deviceDown "device" "sw1", some 60, 30, false⟩, ⟨deviceDown "device" "sw1", some 60, 60, false⟩]

theorem rateLimited_switchCalls : RateLimited (after flatEnv switchCalls).log := by
  refine rateLimited_run flatEnv ⟨by decide, by decide, fun c hc => ?_, by decide⟩
  have hlimit : ∀ c ∈ switchCalls, c.limit = some ((60 : ℕ) : ℚ) := by decide
  exact ⟨60, by decide, hlimit c hc⟩

end AlertLimits
