/-
# Alert stanzas

`AlertWorkerManager` compares each alert message with the stanzas of its configuration:
`match_ignore` drops messages, `match_context` and `match_condition` decide which stanzas a
message matches, and `process_task` attempts an alert by each method of these.

Compiling and matching regular expressions and evaluating the text of a condition are
parameters.  `match_condition` catches what this evaluation raises; nothing between the
stanzas catches what `match_context` raises, which ends the loop over them.
-/
import Ptolemy.PostRemap

namespace AlertWorkerManager

open Driver (valueEq)

/-! ## Messages and configuration -/

/-- What the comparison rests on: one iteration order, `compile(p)` with its `match`, and the truth
of `eval(c % data)`. -/
structure Env where
  order : IterOrder
  compile : String → Except Exn (String → Bool)
  eval : Value → Dict String Value → Except Exn Bool

/-- What a stanza asks of one key: a text, which is a regular expression, or another value. -/
inductive Pattern : Type where
  | str (p : String)
  | other (v : Value)
  deriving DecidableEq

/-- A value of a stanza's context: one pattern or a list. -/
inductive Wanted : Type where
  | one (a : Pattern)
  | list (arr : List Pattern)
  deriving DecidableEq

structure Stanza : Type where
  context : Dict String Wanted
  condition : List Value
  alert_with : List (Dict String (Dict String Value))

/-- The entries of an alert message. -/
structure Alert : Type where
  context : Dict String Value
  data : Dict String Value

/-- The settings: metrics and contexts to ignore, and a list of dicts of named stanzas. -/
structure Settings : Type where
  ignore : Dict String (List (Dict String String))
  alerts : List (Dict String Stanza)

variable (env : Env)

def Wanted.arr : Wanted → List Pattern
  | .one a => [a]
  | .list arr => arr

def Pattern.eq : Pattern → Value → Bool
  | .str p, this => this = .str p
  | .other v, this => valueEq v this

/-- `v == this`; lists are compared element by element. -/
def Wanted.eq : Wanted → Value → Bool
  | .one a, this => a.eq this
  | .list arr, .list items =>
      decide (List.Forall₂ (fun (a : Pattern) s => a.eq (.str s) = true) arr items)
  | .list _, _ => false

/-! ## The comparison -/

/-- `compile(p).match(this)`, for texts only. -/
def matchText (p : String) (this : Option Value) : Except Exn Bool := do
  let r ← env.compile p
  match this with
  | some (.str s) => pure (r s)
  | _ => throw (.typeError "expected string or buffer")

/-- One entry of an ignored context; a key that the message lacks is left out. -/
def ignoreEntry (context : Dict String Value) : List (String × String) → Except Exn Bool
  | [] => pure true
  | (k, p) :: l =>
    if k ∈ context then do
      let b ← matchText env p (context.lookup k)
      let rest ← ignoreEntry context l
      pure (b && rest)
    else ignoreEntry context l

/-- The ignored contexts of one metric. -/
def ignoreAny (context : Dict String Value) : List (Dict String String) → Except Exn Bool
  | [] => pure false
  | d :: ds => do
    if ← ignoreEntry env context (env.order.order d.items) then pure true
    else ignoreAny context ds

def match_ignore (ignore : Dict String (List (Dict String String)))
    (context : Dict String Value) : Except Exn Bool :=
  match context.lookup "metric" with
  | none => throw (.keyError "metric")
  | some (.list _) => throw (.typeError "unhashable type: 'list'")
  | some (.str metric) => match ignore.lookup metric with
    | some ds => ignoreAny env context ds
    | none => pure false
  | some _ => pure false

/-- One pattern of an entry. -/
def matchPattern (v : Wanted) (this : Option Value) : Pattern → Except Exn Bool
  | .str p => matchText env p this
  | .other _ => pure (v.eq (this.getD .none))

/-- The entries of a stanza's context, up to the first that fails. -/
def matchEntries (message_context : Dict String Value) :
    List (String × Wanted) → Except Exn Bool
  | [] => pure true
  | (k, v) :: l => do
    let results ← v.arr.mapM (matchPattern env v (message_context.lookup k))
    if true ∈ results then matchEntries message_context l else pure false

def match_context (context : Dict String Wanted) (message_context : Dict String Value) :
    Except Exn Bool :=
  matchEntries env message_context (env.order.order context.items)

/-- `none` where a condition raises. -/
def match_condition (data : Dict String Value) : List Value → Option Bool
  | [] => some true
  | c :: cs =>
    if valueEq c (.bool true) then match_condition data cs
    else match env.eval c data with
      | .error _ => none
      | .ok false => some false
      | .ok true => match_condition data cs

/-- The stanzas in the order of the loop, each with its position and name. -/
def stanzas (alerts : List (Dict String Stanza)) : List ((Nat × String) × Stanza) :=
  alerts.zipIdx.flatMap (fun p => (env.order.order p.1.items).map (fun q => ((p.2, q.1), q.2)))

/-- The methods of a stanza. -/
def Stanza.methods (s : Stanza) : List String :=
  s.alert_with.flatMap (fun d => (env.order.order d.items).map Prod.fst)

/-- An attempted alert: position and name of the stanza, and the method.  Whether `alert` raises
makes no difference to what follows it. -/
abbrev Attempt : Type := (Nat × String) × String

/-- The loop over the stanzas, which a context that raises ends. -/
def alertLoop (msg : Alert) : List ((Nat × String) × Stanza) → List Attempt × Option Exn
  | [] => ([], none)
  | (name, s) :: l => match match_context env s.context msg.context with
    | .error e => ([], some e)
    | .ok false => alertLoop msg l
    | .ok true =>
      if match_condition env msg.data s.condition = some true then
        ((s.methods env).map (fun method => (name, method)) ++ (alertLoop msg l).1,
          (alertLoop msg l).2)
      else alertLoop msg l

/-- The alerts that `process_task` attempts, and what it raises. -/
def process_task (settings : Settings) (msg : Alert) : List Attempt × Option Exn :=
  match match_ignore env settings.ignore msg.context with
  | .error e => ([], some e)
  | .ok true => ([], none)
  | .ok false => alertLoop env msg (stanzas env settings.alerts)

/-! ## What matches -/

/-- A text that matches a pattern; no other value does. -/
def Match (p : String) (this : Option Value) : Prop :=
  ∃ r s, env.compile p = .ok r ∧ this = some (.str s) ∧ r s = true

/-- A message that the settings drop: it has texts that match for the keys of one of the ignored
contexts of its metric that it has at all. -/
def Ignored (settings : Settings) (msg : Alert) : Prop :=
  ∃ metric ds, msg.context.lookup "metric" = some (.str metric)
    ∧ settings.ignore.lookup metric = some ds
    ∧ ∃ d ∈ ds, ∀ k p, d.lookup k = some p → k ∈ msg.context → Match env p (msg.context.lookup k)

/-- A pattern fits a value, absent or not. -/
def PatternFits (v : Wanted) (this : Option Value) : Pattern → Prop
  | .str p => Match env p this
  | .other _ => v.eq (this.getD .none) = true

/-- One of the patterns fits. -/
def Accepts (v : Wanted) (this : Option Value) : Prop := ∃ a ∈ v.arr, PatternFits env v this a

/-- Each entry of a stanza's context fits what the message has under its key, where a key that it
lacks counts as `None`. -/
def Fits (s : Stanza) (msg : Alert) : Prop :=
  ∀ k v, s.context.lookup k = some v → Accepts env v (msg.context.lookup k)

/-- All conditions of a stanza are met. -/
def ConditionsHold (s : Stanza) (msg : Alert) : Prop :=
  ∀ c ∈ s.condition, valueEq c (.bool true) = true ∨ env.eval c msg.data = .ok true

/-- A stanza's own context and conditions match a message: the message has every key of the context,
with a value that fits. -/
def Matches (s : Stanza) (msg : Alert) : Prop :=
  (∀ k ∈ s.context, k ∈ msg.context) ∧ Fits env s msg ∧ ConditionsHold env s msg

/-- The attempted alerts are those of the methods of the stanzas that match, unless the message is
ignored. -/
def Independent (settings : Settings) (msg : Alert) : Prop :=
  ∀ name method, (name, method) ∈ (process_task env settings msg).1 ↔
    ¬ Ignored env settings msg ∧ ∃ s, (name, s) ∈ stanzas env settings.alerts
      ∧ method ∈ s.methods env ∧ Matches env s msg

/-- A stanza's context is compared without raising. -/
def compared (msg : Alert) (p : (Nat × String) × Stanza) : Bool :=
  (match_context env p.2.context msg.context).isOk

/-- The stanzas before the first one whose context raises; none if `match_ignore` raises, or drops
the message. -/
def reached (settings : Settings) (msg : Alert) : List ((Nat × String) × Stanza) :=
  match match_ignore env settings.ignore msg.context with
  | .ok false => (stanzas env settings.alerts).takeWhile (compared env msg)
  | _ => []

/-- Where a message is not ignored: no stanza that matches and has a method comes after a context
that raises, or has such a context itself, and no stanza that has a method and is reached fits
because the message lacks one of its keys. -/
def Undisturbed (settings : Settings) (msg : Alert) : Prop :=
  ¬ Ignored env settings msg → ∀ p ∈ stanzas env settings.alerts, p.2.methods env ≠ [] →
    (Matches env p.2 msg → p ∈ reached env settings msg)
    ∧ (p ∈ reached env settings msg → Fits env p.2 msg → ConditionsHold env p.2 msg →
      ∀ k ∈ p.2.context, k ∈ msg.context)

/-! ## The comparison decides what matches -/

theorem matchText_ok {p : String} {this : Option Value} {b : Bool}
    (h : matchText env p this = .ok b) : b = true ↔ Match env p this := by
  obtain ⟨r, hr, hmatch⟩ := Except.bind_eq_ok.mp h
  constructor
  · intro hb
    split at hmatch
    · cases hmatch
      exact ⟨r, _, hr, rfl, hb⟩
    · cases hmatch
  · rintro ⟨r', s, hr', rfl, hs⟩
    cases hr.symm.trans hr'
    cases hmatch
    exact hs

theorem matchPattern_ok {v : Wanted} {this : Option Value} {a : Pattern} {b : Bool}
    (h : matchPattern env v this a = .ok b) : b = true ↔ PatternFits env v this a := by
  cases a with
  | str p => exact matchText_ok env h
  | other w =>
    cases h
    exact Iff.rfl

/-- The turns of a loop that does not raise, and their results. -/
theorem forall₂_of_mapM {ε α β : Type} {f : α → Except ε β} {l : List α} {r : List β}
    (h : l.mapM f = .ok r) : List.Forall₂ (fun a b => f a = .ok b) l r := by
  induction l generalizing r with
  | nil =>
    cases h
    exact List.Forall₂.nil
  | cons a l ih =>
    rw [List.mapM_cons] at h
    obtain ⟨c, hc, h⟩ := Except.bind_eq_ok.mp h
    obtain ⟨cs, hcs, h⟩ := Except.bind_eq_ok.mp h
    cases h
    exact List.Forall₂.cons hc (ih hcs)

/-- The results of one entry. -/
theorem accepts_iff {v : Wanted} {this : Option Value} {results : List Bool}
    (h : v.arr.mapM (matchPattern env v this) = .ok results) :
    true ∈ results ↔ Accepts env v this := by
  have hturns := forall₂_of_mapM h
  constructor
  · intro htrue
    obtain ⟨a, ha, hok⟩ := exists_of_forall₂ hturns htrue
    exact ⟨a, ha, (matchPattern_ok env hok).mp rfl⟩
  · rintro ⟨a, ha, hfits⟩
    obtain ⟨b, hb, hok⟩ := exists_of_forall₂ hturns.flip ha
    rw [(matchPattern_ok env hok).mpr hfits] at hb
    exact hb

theorem matchEntries_ok {message_context : Dict String Value} {l : List (String × Wanted)} {b : Bool}
    (h : matchEntries env message_context l = .ok b) :
    b = true ↔ ∀ e ∈ l, Accepts env e.2 (message_context.lookup e.1) := by
  induction l with
  | nil =>
    cases h
    simp
  | cons e l ih =>
    obtain ⟨k, v⟩ := e
    obtain ⟨results, hresults, h⟩ := Except.bind_eq_ok.mp h
    have haccepts := accepts_iff env hresults
    rw [List.forall_mem_cons, ← haccepts]
    by_cases htrue : true ∈ results
    · rw [if_pos htrue] at h
      rw [ih h, and_iff_right htrue]
    · rw [if_neg htrue] at h
      cases h
      simp [htrue]

/-- **A context that does not raise** fits just when each of its entries does. -/
theorem match_context_ok {s : Stanza} {msg : Alert} {b : Bool}
    (h : match_context env s.context msg.context = .ok b) : b = true ↔ Fits env s msg := by
  rw [matchEntries_ok env h]
  unfold Fits
  constructor
  · exact fun hall k v hv => hall (k, v) (env.order.mem_order.mpr (Dict.mem_items.mpr hv))
  · exact fun hfits e he =>
      hfits e.1 e.2 (Dict.mem_items.mp (env.order.mem_order.mp he))

theorem match_condition_eq {s : Stanza} {msg : Alert} :
    match_condition env msg.data s.condition = some true ↔ ConditionsHold env s msg := by
  unfold ConditionsHold
  induction s.condition with
  | nil => simp [match_condition]
  | cons c cs ih =>
    rw [List.forall_mem_cons, ← ih, match_condition]
    by_cases htrue : valueEq c (.bool true) = true
    · simp [htrue]
    · rw [if_neg htrue]
      cases heval : env.eval c msg.data with
      | error e => simp [htrue]
      | ok b => cases b <;> simp [htrue]

theorem ignoreEntry_ok {context : Dict String Value} {l : List (String × String)} {b : Bool}
    (h : ignoreEntry env context l = .ok b) :
    b = true ↔ ∀ e ∈ l, e.1 ∈ context → Match env e.2 (context.lookup e.1) := by
  induction l generalizing b with
  | nil =>
    cases h
    simp
  | cons e l ih =>
    obtain ⟨k, p⟩ := e
    rw [List.forall_mem_cons]
    unfold ignoreEntry at h
    by_cases hk : k ∈ context
    · rw [if_pos hk] at h
      obtain ⟨c, hc, h⟩ := Except.bind_eq_ok.mp h
      obtain ⟨rest, hrest, h⟩ := Except.bind_eq_ok.mp h
      cases h
      rw [Bool.and_eq_true, matchText_ok env hc, ih hrest]
      simp [hk]
    · rw [if_neg hk] at h
      rw [ih h]
      simp [hk]

theorem ignoreAny_ok {context : Dict String Value} {ds : List (Dict String String)} {b : Bool}
    (h : ignoreAny env context ds = .ok b) :
    b = true ↔ ∃ d ∈ ds, ∀ k p, d.lookup k = some p → k ∈ context →
      Match env p (context.lookup k) := by
  induction ds with
  | nil =>
    cases h
    simp
  | cons d ds ih =>
    obtain ⟨c, hc, h⟩ := Except.bind_eq_ok.mp h
    have hentry : c = true ↔ ∀ k p, d.lookup k = some p → k ∈ context →
        Match env p (context.lookup k) := by
      rw [ignoreEntry_ok env hc]
      constructor
      · exact fun hall k p hp => hall (k, p) (env.order.mem_order.mpr (Dict.mem_items.mpr hp))
      · exact fun hall e he =>
          hall e.1 e.2 (Dict.mem_items.mp (env.order.mem_order.mp he))
    rw [List.exists_mem_cons_iff, ← hentry]
    cases c with
    | true =>
      cases h
      simp
    | false =>
      rw [ih h]
      simp

/-- **What `match_ignore` drops**, where it does not raise. -/
theorem match_ignore_ok {settings : Settings} {msg : Alert} {b : Bool}
    (h : match_ignore env settings.ignore msg.context = .ok b) :
    b = true ↔ Ignored env settings msg := by
  unfold match_ignore at h
  unfold Ignored
  cases hmetric : msg.context.lookup "metric" with
  | none =>
    rw [hmetric] at h
    cases h
  | some metric =>
    rw [hmetric] at h
    cases metric with
    | list l => cases h
    | str metric =>
      simp only at h
      cases hds : settings.ignore.lookup metric with
      | none =>
        rw [hds] at h
        cases h
        simp [hds]
      | some ds =>
        rw [hds] at h
        rw [ignoreAny_ok env h]
        simp [hds]
    | none =>
      cases h
      simp
    | bool b =>
      cases h
      simp
    | int n =>
      cases h
      simp
    | float t =>
      cases h
      simp

/-! ## The loop over the stanzas -/

/-- A position and a name belong to one stanza. -/
theorem stanzas_unique {alerts : List (Dict String Stanza)} {name : Nat × String} {s s' : Stanza}
    (h : (name, s) ∈ stanzas env alerts) (h' : (name, s') ∈ stanzas env alerts) : s = s' := by
  have hmem : ∀ s, (name, s) ∈ stanzas env alerts →
      ∃ d, alerts[name.1]? = some d ∧ d.lookup name.2 = some s := by
    intro s hs
    obtain ⟨⟨d, i⟩, hd, hitems⟩ := List.mem_flatMap.mp hs
    obtain ⟨⟨k, s'⟩, hq, heq⟩ := List.mem_map.mp hitems
    obtain ⟨rfl, rfl⟩ := Prod.mk.inj heq
    exact ⟨d, List.mem_zipIdx_iff_getElem?.mp hd,
      Dict.mem_items.mp (env.order.mem_order.mp hq)⟩
  obtain ⟨d, hd, hs⟩ := hmem s h
  obtain ⟨d', hd', hs'⟩ := hmem s' h'
  cases hd.symm.trans hd'
  exact Option.some.inj (hs.symm.trans hs')

/-- **The loop** attempts the alerts of the stanzas that fit, up to the first that raises. -/
theorem mem_alertLoop {msg : Alert} {l : List ((Nat × String) × Stanza)} {name : Nat × String}
    {method : String} : (name, method) ∈ (alertLoop env msg l).1 ↔
      ∃ s, (name, s) ∈ l.takeWhile (compared env msg)
        ∧ method ∈ s.methods env ∧ Fits env s msg ∧ ConditionsHold env s msg := by
  induction l with
  | nil => simp [alertLoop]
  | cons p l ih =>
    obtain ⟨name', s'⟩ := p
    rw [alertLoop, List.takeWhile_cons]
    cases hcontext : match_context env s'.context msg.context with
    | error e =>
      have hraises : compared env msg (name', s') = false := by
        unfold compared
        rw [hcontext]
        rfl
      simp [hraises]
    | ok b =>
      have hfits := match_context_ok env hcontext
      have hcompared : compared env msg (name', s') = true := by
        unfold compared
        rw [hcontext]
        rfl
      -- what this stanza adds
      have hsplit : (∃ s, (name, s) ∈ (name', s') :: l.takeWhile (compared env msg)
            ∧ method ∈ s.methods env ∧ Fits env s msg ∧ ConditionsHold env s msg)
          ↔ (name = name' ∧ method ∈ s'.methods env ∧ Fits env s' msg ∧ ConditionsHold env s' msg)
            ∨ (name, method) ∈ (alertLoop env msg l).1 := by
        rw [ih]
        simp only [List.mem_cons, Prod.mk.injEq]
        constructor
        · rintro ⟨s, ⟨rfl, rfl⟩ | hmem, hrest⟩
          · exact Or.inl ⟨rfl, hrest⟩
          · exact Or.inr ⟨s, hmem, hrest⟩
        · rintro (⟨rfl, hrest⟩ | ⟨s, hmem, hrest⟩)
          · exact ⟨s', Or.inl ⟨rfl, rfl⟩, hrest⟩
          · exact ⟨s, Or.inr hmem, hrest⟩
      rw [if_pos hcompared, hsplit]
      cases b with
      | false =>
        have hnot : ¬ Fits env s' msg := fun h => Bool.false_ne_true (hfits.mpr h)
        simp [hnot]
      | true =>
        have hcond : match_condition env msg.data s'.condition = some true ↔ ConditionsHold env s' msg :=
          match_condition_eq env
        by_cases hholds : ConditionsHold env s' msg
        · simp only [if_pos (hcond.mpr hholds), List.mem_append, List.mem_map, Prod.mk.injEq,
            hfits.mp rfl, hholds, and_true]
          refine or_congr_left ⟨?_, ?_⟩
          · rintro ⟨m, hm, rfl, rfl⟩
            exact ⟨rfl, hm⟩
          · rintro ⟨rfl, hm⟩
            exact ⟨method, hm, rfl, rfl⟩
        · simp only [if_neg (fun h => hholds (hcond.mp h)), hholds, and_false, false_or]

theorem mem_process_task {settings : Settings} {msg : Alert} {name : Nat × String}
    {method : String} : (name, method) ∈ (process_task env settings msg).1 ↔
      ∃ s, (name, s) ∈ reached env settings msg
        ∧ method ∈ s.methods env ∧ Fits env s msg ∧ ConditionsHold env s msg := by
  unfold process_task reached
  cases match_ignore env settings.ignore msg.context with
  | error e => simp
  | ok b =>
    cases b with
    | true => simp
    | false => exact mem_alertLoop env

theorem mem_of_mem_reached {settings : Settings} {msg : Alert} {p : (Nat × String) × Stanza}
    (h : p ∈ reached env settings msg) : p ∈ stanzas env settings.alerts := by
  unfold reached at h
  split at h
  · exact (List.takeWhile_sublist _).subset h
  · cases h

theorem reached_of_ignored {settings : Settings} {msg : Alert} (h : Ignored env settings msg) :
    reached env settings msg = [] := by
  unfold reached
  split
  · rename_i hignore
    cases (match_ignore_ok env hignore).mpr h
  · rfl

/-- **Independence of alert stanzas**: the attempted alerts are those of the stanzas that match just
when no context that raises stands before them, and none of them rests on a missing key. -/
theorem independent_iff (settings : Settings) (msg : Alert) :
    Independent env settings msg ↔ Undisturbed env settings msg := by
  unfold Independent Undisturbed
  constructor
  · intro hind hnot p hp hmethods
    obtain ⟨name, s⟩ := p
    obtain ⟨method, hmethod⟩ := List.exists_mem_of_ne_nil _ hmethods
    have hpair := hind name method
    rw [mem_process_task] at hpair
    constructor
    · intro hmatches
      obtain ⟨s', hs', -⟩ := hpair.mpr ⟨hnot, s, hp, hmethod, hmatches⟩
      rwa [stanzas_unique env hp (mem_of_mem_reached env hs')]
    · intro hreached hfits hholds
      obtain ⟨-, s', hs', -, hmatches⟩ := hpair.mp ⟨s, hreached, hmethod, hfits, hholds⟩
      rw [stanzas_unique env hp hs']
      exact hmatches.1
  · intro hundisturbed name method
    rw [mem_process_task]
    constructor
    · rintro ⟨s, hreached, hmethod, hfits, hholds⟩
      have hnot : ¬ Ignored env settings msg := by
        intro hignored
        rw [reached_of_ignored env hignored] at hreached
        cases hreached
      have hp := mem_of_mem_reached env hreached
      have hkeys := (hundisturbed hnot _ hp (List.ne_nil_of_mem hmethod)).2 hreached hfits hholds
      exact ⟨hnot, s, hp, hmethod, hkeys, hfits, hholds⟩
    · rintro ⟨hnot, s, hp, hmethod, hmatches⟩
      have hreached := (hundisturbed hnot _ hp (List.ne_nil_of_mem hmethod)).1 hmatches
      exact ⟨s, hreached, hmethod, hmatches.2⟩

/-- A stanza that asks by expressions for a key which the message lacks, or has with a value that is
no text, does not match. -/
theorem not_matches {s : Stanza} {msg : Alert} {k : String} {v : Wanted}
    (hv : s.context.lookup k = some v) (htexts : ∀ a ∈ v.arr, ∃ p, a = .str p)
    (hthis : ∀ text, msg.context.lookup k ≠ some (.str text)) : ¬ Matches env s msg := by
  rintro ⟨-, hfits, -⟩
  obtain ⟨a, ha, hpattern⟩ := hfits k v hv
  obtain ⟨p, rfl⟩ := htexts a ha
  obtain ⟨-, text, -, htext, -⟩ := hpattern
  exact hthis text htext

/-! ### A stanza for ports beside one for devices -/

/-- Expressions are prefixes here, and conditions hold. -/
def prefixEnv : Env where
  order := .stored
  compile := fun p => .ok (fun s => p.toList.isPrefixOf s.toList)
  eval := fun _ _ => .ok true

/-- A stanza that asks for one key, and stores its alerts. -/
def storing (key p : String) : Stanza :=
  ⟨Dict.ofList [(key, .one (.str p))], [], [Dict.ofList [("store", ∅)]]⟩

/-- An alert for a device, without a port. -/
def deviceAlert : Alert :=
  ⟨Dict.ofList [("metric", .str "devices.unreachable"), ("device", .str "swh-b050")], ∅⟩

/-- A stanza for ports and, after it, one for devices: the alert for a device has no port, and so the
second stanza does not fire. -/
theorem not_independent :
    ¬ Independent prefixEnv ⟨∅, [Dict.ofList [("ports", storing "physical_port" "Gi")],
      Dict.ofList [("devices", storing "device" "swh")]]⟩ deviceAlert := by
  intro h
  have hnone : (process_task prefixEnv ⟨∅, [Dict.ofList [("ports", storing "physical_port" "Gi")],
      Dict.ofList [("devices", storing "device" "swh")]]⟩ deviceAlert).1 = [] := by decide
  have hdevices := (h (1, "devices") "store").mpr
  rw [hnone] at hdevices
  have hcontext : match_context prefixEnv (storing "device" "swh").context deviceAlert.context
      = .ok true := rfl
  refine List.not_mem_nil (hdevices ⟨?_, storing "device" "swh", ?_, by decide, ?_,
    (match_context_ok prefixEnv hcontext).mp rfl, ?_⟩)
  · rintro ⟨metric, ds, -, hds, -⟩
    cases hds
  · exact List.mem_cons_of_mem _ List.mem_cons_self
  · decide
  · exact fun c hc => absurd hc List.not_mem_nil

end AlertWorkerManager
