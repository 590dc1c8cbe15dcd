/-
# From observations to alerts

`AnalyseWorker` compares what it observes with a stanza of its configuration.
`process_what` creates a key in redis for each context that the stanza is about, and
`process_when` keeps there whether the last observation met the condition of the stanza,
and its value.  The alerts it makes are compared with the conditions for new, continued and
ended alerts of the alert configuration.

`float` and the search for regular expressions are parameters.  The pair of a state and a
value is what `eval` reads from the text that was stored for it, unless the value is a float
that is not finite: its text is a name that `eval` does not know.
-/
import Ptolemy.AlertStanzas
import Ptolemy.Run

/-! ## Floats in order -/

/-- A float, as far as its order goes. -/
inductive FloatVal : Type where
  | nan
  | negInf
  | finite (q : ℚ)
  | posInf
  deriving DecidableEq

namespace FloatVal

/-- `a < b`, false for `nan`. -/
def lt : FloatVal → FloatVal → Bool
  | .nan, _ => false
  | _, .nan => false
  | .finite a, .finite b => a < b
  | .negInf, .negInf => false
  | .negInf, _ => true
  | .finite _, .posInf => true
  | .finite _, .negInf => false
  | .posInf, _ => false

/-- `a <= b`, false for `nan`. -/
def le (a b : FloatVal) : Bool := lt a b || (a = b && a ≠ .nan)

/-- Two floats are in the same order both ways when they are equal or not ordered. -/
theorem le_eq_swap {a b : FloatVal} : le a b = le b a ↔ a = b ∨ a = .nan ∨ b = .nan := by
  cases a with
  | nan => cases b <;> simp [le, lt]
  | negInf => cases b <;> simp [le, lt]
  | posInf => cases b <;> simp [le, lt]
  | finite p =>
    cases b with
    | finite q =>
      rcases lt_trichotomy p q with h | h | h
      · simp [le, lt, h, h.ne, h.ne', h.le]
      · simp [le, lt, h]
      · simp [le, lt, h, h.ne, h.ne', h.le]
    | nan => simp [le, lt]
    | negInf => simp [le, lt]
    | posInf => simp [le, lt]

end FloatVal

/-! ## The conditions of the alert configuration -/

namespace AlertWorkerManager

/-- One piece of a format text, after a `%`: `(name)s` and what follows it. -/
def formatPiece (data : Dict String Value) : List Char → Except Exn (List Char)
  | '(' :: cs =>
    match cs.dropWhile (· ≠ ')') with
    | ')' :: 's' :: rest =>
      match data.lookup (String.ofList (cs.takeWhile (· ≠ ')'))) with
      | some v => pure (v.toText.toList ++ rest)
      | none => throw (.keyError (String.ofList (cs.takeWhile (· ≠ ')'))))
    | _ => throw (.valueError "unsupported format character")
  | _ => throw (.valueError "unsupported format character")

/-- `c % data`, for texts with no other formats than `%(name)s`. -/
def formatText (c : String) (data : Dict String Value) : Except Exn String :=
  match Text.splitChars '%' c.toList with
  | [] => pure ""
  | first :: pieces => do
    let texts ← pieces.mapM (formatPiece data)
    pure (String.ofList (first ++ texts.flatten))

/-- The constants that the conditions name. -/
def evalConstant : String → Except Exn Value
  | "True" => pure (.bool true)
  | "False" => pure (.bool false)
  | "None" => pure .none
  | name => throw (.exception ("name '" ++ name ++ "' is not defined"))

/-- `eval(cmd)`, for one comparison of two constants. -/
def evalComparison (cmd : String) : Except Exn Bool :=
  match Text.split ' ' cmd with
  | [a, "==", b] => do pure ((← evalConstant a) = (← evalConstant b))
  | [a, "!=", b] => do pure ((← evalConstant a) ≠ (← evalConstant b))
  | _ => throw (.syntaxError "invalid syntax")

/-- The comparison of alerts, with conditions evaluated as above. -/
def configured (env : Env) : Env where
  order := env.order
  compile := env.compile
  eval := fun c data => match c with
    | .str c => do evalComparison (← formatText c data)
    | _ => throw (.typeError "unsupported operand type(s) for %")

/-- The three generic alerts of the configuration. -/
inductive Phase : Type where
  | new_alert
  | continual_alert
  | end_alert
  deriving DecidableEq, Repr

def Phase.condition : Phase → List Value
  | .new_alert => [.str "%(state)s == True", .str "%(last_state)s != True"]
  | .continual_alert => [.str "%(state)s == True", .str "%(last_state)s == True"]
  | .end_alert => [.str "%(state)s == False", .str "%(last_state)s == True"]

/-- The generic alerts whose conditions a message meets. -/
def phases (env : Env) (data : Dict String Value) : List Phase :=
  [Phase.new_alert, .continual_alert, .end_alert].filter
    (fun p => match_condition (configured env) data p.condition = some true)

end AlertWorkerManager

namespace AnalyseWorker

open AlertWorkerManager (Phase phases)

/-! ## The stanza -/

/-- What the directives rest on: `float(v)`, `none` where it raises, and `search(regex, text)`. -/
structure Env : Type where
  float : Value → Option FloatVal
  search : String → String → Bool

/-- The directive of a `when` field. -/
inductive Test : Type where
  | eq (v : Value)
  | ne (v : Value)
  | ge (x : FloatVal)
  | gt (x : FloatVal)
  | le (x : FloatVal)
  | lt (x : FloatVal)
  | inside (range : String)
  | outside (range : String)
  deriving DecidableEq

/-- The two fields of a stanza. -/
structure Stanza : Type where
  what : String × String
  name : String
  test : Test

/-- The last state and value of a context. -/
abbrev Cell : Type := Option Bool × Value

/-- A value that `eval` reads from its text. -/
def readable : Value → Bool
  | .float t => t ∉ ["nan", "inf", "-inf"]
  | _ => true

/-- `eval(self.redis.get(k))`, or the two `None`s that it leaves where it raises. -/
def Cell.read (c : Cell) : Cell := if readable c.2 then c else (none, .none)

/-- The dict that `process_when` returns; `process_alert` sends it with the stanza added. -/
structure Report : Type where
  value : Value
  last_value : Value
  state : Bool
  last_state : Option Bool

variable (env : Env)

/-- `l,h = d[x].split(',')`, with both as floats. -/
def bounds (range : String) : Option (FloatVal × FloatVal) :=
  match Text.split ',' range with
  | [l, h] => do pure (← env.float (.str l), ← env.float (.str h))
  | _ => none

/-- The state that `process_when` computes; `none` where it raises. -/
def Test.state (value : Value) : Test → Option Bool
  | .eq v => some (value.toText = v.toText)
  | .ne v => some (value.toText ≠ v.toText)
  | .ge x => (env.float value).map (fun f => FloatVal.le x f)
  | .gt x => (env.float value).map (fun f => FloatVal.lt x f)
  | .le x => (env.float value).map (fun f => FloatVal.le x f)
  | .lt x => (env.float value).map (fun f => FloatVal.lt f x)
  | .inside range => do
    let (l, h) ← bounds env range
    let v ← env.float value
    pure (!FloatVal.lt l v && FloatVal.lt v h)
  | .outside range => do
    let (l, h) ← bounds env range
    let v ← env.float value
    pure (FloatVal.lt v l || FloatVal.lt h v)

/-- The key after `process_what`; the fields of context and data are merged. -/
def process_what (d : Stanza) (key : Option Cell) (merged : Dict String Value) : Option Cell :=
  match merged.lookup d.what.1 with
  | none => key
  | some v =>
    if Driver.truthy v ∧ env.search d.what.2 v.toText = true then some (key.getD (none, .none))
    else none

/-- The key after `process_when`, and the report; `none` where it raises. -/
def process_when (d : Stanza) (key : Option Cell) (data : Dict String Value) :
    Option (Option Cell × Option Report) :=
  match key with
  | none => some (none, none)
  | some cell => do
    let (last_state, last_value) := cell.read
    let value ← data.lookup d.name
    let state ← d.test.state env value
    if state || (last_state ≠ none && last_state ≠ some state) then
      pure (some (some state, value), some ⟨value, last_value, state, last_state⟩)
    else pure (some (some state, value), none)

def Report.data (r : Report) : Dict String Value :=
  Dict.ofList [("value", r.value), ("last_value", r.last_value), ("state", .bool r.state),
    ("last_state", r.last_state.elim .none .bool)]

/-! ## Runs of one stanza and context -/

/-- Items for the context, of the kind of the `what` or of the `when` half of the stanza. -/
inductive Event : Type where
  | what (merged : Dict String Value)
  | when (data : Dict String Value)

/-- The key, and, beside it, the values observed so far and the generic alerts for each. -/
structure State : Type where
  key : Option Cell
  observed : List Value := []
  alerts : List (List Phase) := []

variable (aenv : AlertWorkerManager.Env) (d : Stanza)

/-- An item with the field of the stanza is an observation. -/
def observe (s : State) (data : Dict String Value) : State :=
  let r := (process_when env d s.key data).getD (s.key, none)
  match data.lookup d.name with
  | none => { s with key := r.1 }
  | some value =>
    ⟨r.1, s.observed ++ [value], s.alerts ++ [r.2.elim [] (fun r => phases aenv r.data)]⟩

def step (s : State) : Event → State
  | .what merged => { s with key := process_what env d s.key merged }
  | .when data => observe env aenv d s data

/-- The key was just created. -/
def start : State := ⟨some (none, .none), [], []⟩

/-! ## What the alerts should be -/

/-- A value satisfies the condition that a directive names; a value that is no number does not
satisfy one about numbers. -/
def Test.satisfied (value : Value) : Test → Bool
  | .eq v => value.toText = v.toText
  | .ne v => value.toText ≠ v.toText
  | .ge x => (env.float value).elim false (fun f => FloatVal.le x f)
  | .gt x => (env.float value).elim false (fun f => FloatVal.lt x f)
  | .le x => (env.float value).elim false (fun f => FloatVal.le f x)
  | .lt x => (env.float value).elim false (fun f => FloatVal.lt f x)
  | .inside range => match bounds env range, env.float value with
    | some (l, h), some f => FloatVal.lt l f && FloatVal.lt f h
    | _, _ => false
  | .outside range => match bounds env range, env.float value with
    | some (l, h), some f => FloatVal.lt f l || FloatVal.lt h f
    | _, _ => false

/-- The alert for an observation, given whether the one before satisfied the condition and whether
this one does. -/
def phaseOf : Bool → Bool → List Phase
  | false, true => [.new_alert]
  | true, true => [.continual_alert]
  | true, false => [.end_alert]
  | false, false => []

/-- The alerts for a list of observations: for each longest stretch of observations that satisfy the
condition a new one, continued ones, and an ended one after it. -/
def lifecycle (last : Bool) : List Bool → List (List Phase)
  | [] => []
  | b :: bs => phaseOf last b :: lifecycle b bs

/-- The observations so far, as to the condition. -/
def State.history (s : State) : List Bool := s.observed.map (fun v => d.test.satisfied env v)

/-- The alerts so far are those of the observations. -/
def Classified (s : State) : Prop := s.alerts = lifecycle false (s.history env d)

/-- The values that are observed in a step. -/
def Event.values : Event → List Value
  | .what _ => []
  | .when data => (data.lookup d.name).toList

/-- The key stays alive in a step, and what it observes is a text or a finite number. -/
def Ordinary (s : State) (e : Event) : Prop :=
  (step env aenv d s e).key.isSome ∧ ∀ v ∈ e.values d, readable v = true

/-! ## When they are -/

/-- What a directive about numbers needs is there. -/
def Test.converts (value : Value) : Test → Bool
  | .eq _ => true
  | .ne _ => true
  | .ge _ => (env.float value).isSome
  | .gt _ => (env.float value).isSome
  | .le _ => (env.float value).isSome
  | .lt _ => (env.float value).isSome
  | .inside range => (bounds env range).isSome && (env.float value).isSome
  | .outside range => (bounds env range).isSome && (env.float value).isSome

/-- The value is none for which the comparison goes the wrong way: with `le` it is the bound itself,
or one of them is no number, and with `inside` it is not below the upper bound. -/
def Test.Unmistaken (value : Value) : Test → Prop
  | .le x => ∀ f, env.float value = some f → f = x ∨ f = .nan ∨ x = .nan
  | .inside range => ∀ l h f, bounds env range = some (l, h) → env.float value = some f →
      FloatVal.lt f h = false
  | _ => True

/-- An observation that can be compared is not mistaken; one that cannot comes after one that did
not satisfy the condition, if any. -/
def Decided (s : State) : Event → Prop
  | .what _ => True
  | .when data => ∀ value, data.lookup d.name = some value →
      if d.test.converts env value then d.test.Unmistaken env value
      else (s.history env d).getLastD false = false

/-! ## One observation -/

/-- A comparison that does not raise computes whether the condition is satisfied just when it is not
mistaken. -/
theorem Test.state_of_converts {value : Value} {t : Test} (h : t.converts env value = true) :
    ∃ b, t.state env value = some b ∧ (b = t.satisfied env value ↔ t.Unmistaken env value) := by
  cases t with
  | eq v => exact ⟨_, rfl, by simp [Test.satisfied, Test.Unmistaken]⟩
  | ne v => exact ⟨_, rfl, by simp [Test.satisfied, Test.Unmistaken]⟩
  | ge x =>
    obtain ⟨f, hf⟩ := Option.isSome_iff_exists.mp h
    exact ⟨FloatVal.le x f, by simp [Test.state, hf], by simp [Test.satisfied, Test.Unmistaken, hf]⟩
  | gt x =>
    obtain ⟨f, hf⟩ := Option.isSome_iff_exists.mp h
    exact ⟨FloatVal.lt x f, by simp [Test.state, hf], by simp [Test.satisfied, Test.Unmistaken, hf]⟩
  | lt x =>
    obtain ⟨f, hf⟩ := Option.isSome_iff_exists.mp h
    exact ⟨FloatVal.lt f x, by simp [Test.state, hf], by simp [Test.satisfied, Test.Unmistaken, hf]⟩
  | le x =>
    obtain ⟨f, hf⟩ := Option.isSome_iff_exists.mp h
    refine ⟨FloatVal.le x f, by simp [Test.state, hf], ?_⟩
    -- the comparison is the one of `ge`
    have hswap : FloatVal.le x f = FloatVal.le f x ↔ f = x ∨ f = .nan ∨ x = .nan := by
      rw [eq_comm, FloatVal.le_eq_swap]
    simpa [Test.satisfied, Test.Unmistaken, hf] using hswap
  | inside range =>
    obtain ⟨hrange, hvalue⟩ := Bool.and_eq_true_iff.mp h
    obtain ⟨⟨l, u⟩, hlu⟩ := Option.isSome_iff_exists.mp hrange
    obtain ⟨f, hf⟩ := Option.isSome_iff_exists.mp hvalue
    refine ⟨!FloatVal.lt l f && FloatVal.lt f u, by simp [Test.state, hlu, hf], ?_⟩
    simp only [Test.satisfied, Test.Unmistaken, hlu, hf, Option.some.injEq, Prod.mk.injEq]
    constructor
    · rintro heq _ _ _ ⟨rfl, rfl⟩ rfl
      cases hu : FloatVal.lt f u with
      | false => rfl
      | true =>
        rw [hu, Bool.and_true, Bool.and_true] at heq
        exact absurd heq (Bool.not_ne_self _)
    · intro hout
      rw [hout l u f ⟨rfl, rfl⟩ rfl, Bool.and_false, Bool.and_false]
  | outside range =>
    obtain ⟨hrange, hvalue⟩ := Bool.and_eq_true_iff.mp h
    obtain ⟨⟨l, u⟩, hlu⟩ := Option.isSome_iff_exists.mp hrange
    obtain ⟨f, hf⟩ := Option.isSome_iff_exists.mp hvalue
    exact ⟨FloatVal.lt f l || FloatVal.lt u f, by simp [Test.state, hlu, hf],
      by simp [Test.satisfied, Test.Unmistaken, hlu, hf]⟩

/-- A comparison that raises is one of a value that does not satisfy the condition. -/
theorem Test.state_of_not_converts {value : Value} {t : Test} (h : t.converts env value = false) :
    t.state env value = none ∧ t.satisfied env value = false := by
  cases t with
  | eq v => cases h
  | ne v => cases h
  | ge x =>
    have hf : env.float value = none := by simpa [Test.converts] using h
    simp [Test.state, Test.satisfied, hf]
  | gt x =>
    have hf : env.float value = none := by simpa [Test.converts] using h
    simp [Test.state, Test.satisfied, hf]
  | le x =>
    have hf : env.float value = none := by simpa [Test.converts] using h
    simp [Test.state, Test.satisfied, hf]
  | lt x =>
    have hf : env.float value = none := by simpa [Test.converts] using h
    simp [Test.state, Test.satisfied, hf]
  | inside range =>
    cases hb : bounds env range with
    | none => simp [Test.state, Test.satisfied, hb]
    | some p =>
      have hf : env.float value = none := by simpa [Test.converts, hb] using h
      simp [Test.state, Test.satisfied, hb, hf]
  | outside range =>
    cases hb : bounds env range with
    | none => simp [Test.state, Test.satisfied, hb]
    | some p =>
      have hf : env.float value = none := by simpa [Test.converts, hb] using h
      simp [Test.state, Test.satisfied, hb, hf]

/-- A condition on one entry is evaluated with the text of the entry in its place. -/
theorem eval_configured (c : String) (cs rest : List Char) {name : String}
    {data : Dict String Value} {v : Value}
    (hpieces : Text.splitChars '%' c.toList = [[], '(' :: cs])
    (hname : String.ofList (cs.takeWhile (· ≠ ')')) = name)
    (hrest : cs.dropWhile (· ≠ ')') = ')' :: 's' :: rest) (hv : data.lookup name = some v) :
    (AlertWorkerManager.configured aenv).eval (.str c) data
      = AlertWorkerManager.evalComparison (String.ofList (v.toText.toList ++ rest)) := by
  have hpiece : AlertWorkerManager.formatPiece data ('(' :: cs) = .ok (v.toText.toList ++ rest) := by
    subst hname
    unfold AlertWorkerManager.formatPiece
    simp only [hrest]
    rw [hv]
    rfl
  have hformat : AlertWorkerManager.formatText c data
      = .ok (String.ofList (v.toText.toList ++ rest)) := by
    unfold AlertWorkerManager.formatText
    simp only [hpieces, List.mapM_cons, List.mapM_nil, hpiece, Except.ok_bind]
    simp [pure, Except.pure]
  show (AlertWorkerManager.formatText c data >>= AlertWorkerManager.evalComparison) = _
  rw [hformat, Except.ok_bind]

/-- Two conditions that are evaluated. -/
theorem match_condition_pair {c c' : String} {b b' : Bool} {data : Dict String Value}
    (hb : (AlertWorkerManager.configured aenv).eval (.str c) data = .ok b)
    (hb' : (AlertWorkerManager.configured aenv).eval (.str c') data = .ok b') :
    decide (AlertWorkerManager.match_condition (AlertWorkerManager.configured aenv) data
      [.str c, .str c'] = some true) = (b && b') := by
  have htext : ∀ c : String, ¬ Driver.valueEq (.str c) (.bool true) = true := fun _ h => by cases h
  unfold AlertWorkerManager.match_condition
  rw [if_neg (htext c), hb]
  cases b with
  | false => rfl
  | true =>
    simp only
    unfold AlertWorkerManager.match_condition
    rw [if_neg (htext c'), hb']
    cases b' <;> rfl

/-- **The generic alerts** of a report are those of its two states. -/
theorem phases_report (r : Report) :
    phases aenv r.data = phaseOf (r.last_state = some true) r.state := by
  have hstate : r.data.lookup "state" = some (.bool r.state) := rfl
  have hlast : r.data.lookup "last_state" = some (r.last_state.elim .none .bool) := rfl
  -- the texts of the conditions, with the states in their places
  have htrue : ∀ b, AlertWorkerManager.evalComparison
      (String.ofList ((Value.bool b).toText.toList ++ " == True".toList)) = .ok b := by
    decide
  have hfalse : ∀ b, AlertWorkerManager.evalComparison
      (String.ofList ((Value.bool b).toText.toList ++ " == False".toList)) = .ok (!b) := by
    decide
  have hsame : ∀ o : Option Bool, AlertWorkerManager.evalComparison
      (String.ofList ((o.elim Value.none .bool).toText.toList ++ " == True".toList))
        = .ok (o = some true) := by
    decide
  have hother : ∀ o : Option Bool, AlertWorkerManager.evalComparison
      (String.ofList ((o.elim Value.none .bool).toText.toList ++ " != True".toList))
        = .ok (o ≠ some true) := by
    decide
  have hnew := (eval_configured aenv "%(state)s == True" "state)s == True".toList
    " == True".toList (by decide) (by decide) (by decide) hstate).trans (htrue _)
  have hend := (eval_configured aenv "%(state)s == False" "state)s == False".toList
    " == False".toList (by decide) (by decide) (by decide) hstate).trans (hfalse _)
  have hfirst := (eval_configured aenv "%(last_state)s != True" "last_state)s != True".toList
    " != True".toList (by decide)
    (by decide) (by decide) hlast).trans (hother _)
  have hagain := (eval_configured aenv "%(last_state)s == True" "last_state)s == True".toList
    " == True".toList (by decide)
    (by decide) (by decide) hlast).trans (hsame _)
  have hphase₁ := match_condition_pair aenv hnew hfirst
  have hphase₂ := match_condition_pair aenv hnew hagain
  have hphase₃ := match_condition_pair aenv hend hagain
  unfold phases AlertWorkerManager.Phase.condition
  simp only [List.filter_cons, List.filter_nil, hphase₁, hphase₂, hphase₃]
  cases r.state with
  | true => by_cases hlast : r.last_state = some true <;> simp [hlast, phaseOf]
  | false => by_cases hlast : r.last_state = some true <;> simp [hlast, phaseOf]

/-! ## One comparison -/

/-- The state that `process_when` stores for an item; `none` where it raises. -/
def stateOf (cell : Cell) (data : Dict String Value) : Option Bool :=
  (process_when env d (some cell) data).bind (fun r => r.1.bind Prod.fst)

theorem stateOf_eq (cell : Cell) {data : Dict String Value} {value : Value}
    (h : data.lookup d.name = some value) : stateOf env d cell data = d.test.state env value := by
  unfold stateOf process_when
  simp only [h, Option.bind_eq_bind, Option.bind_some]
  cases d.test.state env value with
  | none => rfl
  | some b =>
    rw [Option.bind_some]
    split_ifs <;> rfl

/-- **Comparators**: the state of an observed value is true exactly when the value satisfies the
relation, unless it is a number on the wrong side for `le` or `inside`. -/
theorem stateOf_iff (cell : Cell) {data : Dict String Value} {value : Value}
    (h : data.lookup d.name = some value) :
    (stateOf env d cell data = some true ↔ d.test.satisfied env value = true)
      ↔ (d.test.converts env value = true → d.test.Unmistaken env value) := by
  rw [stateOf_eq env d cell h]
  cases hconv : d.test.converts env value with
  | true =>
    obtain ⟨b, hb, hright⟩ := Test.state_of_converts env hconv
    rw [hb, ← hright, Option.some.injEq, ← Bool.eq_iff_iff]
    exact ⟨fun heq _ => heq, fun heq => heq rfl⟩
  | false =>
    obtain ⟨hstate, hunsat⟩ := Test.state_of_not_converts env hconv
    rw [hstate, hunsat]
    exact iff_of_true (iff_of_false (by simp) Bool.false_ne_true)
      (fun hc => absurd hc Bool.false_ne_true)

/-! ## Runs -/

theorem lifecycle_append (last b : Bool) (bs : List Bool) :
    lifecycle last (bs ++ [b]) = lifecycle last bs ++ [phaseOf (bs.getLastD last) b] := by
  induction bs generalizing last with
  | nil => rfl
  | cons a bs ih =>
    rw [List.cons_append, lifecycle, lifecycle, ih, List.getLastD_cons, List.cons_append]

theorem phaseOf_inj {last b b' : Bool} : phaseOf last b = phaseOf last b' ↔ b = b' := by
  cases last <;> cases b <;> cases b' <;> decide

/-- The key holds whether the last observation satisfied the condition, and a value that can be read
again. -/
def Remembers (s : State) : Prop :=
  ∃ last_state last_value, s.key = some (last_state, last_value) ∧ readable last_value = true
    ∧ decide (last_state = some true) = (s.history env d).getLastD false

/-- An observation, with a comparison that does not raise. -/
theorem observe_of_state {s : State} {data : Dict String Value} {last_state : Option Bool}
    {last_value value : Value} {b : Bool} (hkey : s.key = some (last_state, last_value))
    (hread : readable last_value = true) (hvalue : data.lookup d.name = some value)
    (hstate : d.test.state env value = some b) :
    observe env aenv d s data = ⟨some (some b, value), s.observed ++ [value],
      s.alerts ++ [phaseOf (last_state = some true) b]⟩ := by
  have hcell : Cell.read (last_state, last_value) = (last_state, last_value) := if_pos hread
  have hwhen : process_when env d s.key data = some (some (some b, value),
      if b || (last_state ≠ none && last_state ≠ some b)
        then some ⟨value, last_value, b, last_state⟩ else none) := by
    unfold process_when
    rw [hkey]
    simp only [hcell, hvalue, hstate, Option.bind_eq_bind, Option.bind_some]
    split_ifs <;> rfl
  unfold observe
  rw [hwhen, hvalue]
  simp only [Option.getD_some, State.mk.injEq, true_and, List.append_cancel_left_eq, List.cons.injEq,
    and_true]
  split_ifs with hreport
  · rw [Option.elim_some, phases_report]
  · -- no report: neither this observation nor the one before satisfies the condition
    revert hreport
    cases b <;> rcases last_state with _ | _ | _ <;> simp [phaseOf]

/-- An observation whose comparison raises leaves the key as it is. -/
theorem observe_of_raises {s : State} {data : Dict String Value} {cell : Cell} {value : Value}
    (hkey : s.key = some cell) (hvalue : data.lookup d.name = some value)
    (hstate : d.test.state env value = none) :
    observe env aenv d s data = ⟨s.key, s.observed ++ [value], s.alerts ++ [[]]⟩ := by
  have hwhen : process_when env d s.key data = none := by
    unfold process_when
    rw [hkey]
    simp [hvalue, hstate]
  unfold observe
  rw [hwhen, hvalue]
  rfl

/-- An item without the field is no observation. -/
theorem observe_of_none {s : State} {data : Dict String Value} (hvalue : data.lookup d.name = none) :
    observe env aenv d s data = s := by
  have hwhen : (process_when env d s.key data).getD (s.key, none) = (s.key, none) := by
    unfold process_when
    cases s.key with
    | none => rfl
    | some cell => simp [hvalue]
  unfold observe
  rw [hwhen, hvalue]

/-- The key of a context that the stanza is about stays as it is. -/
theorem process_what_of_isSome {key : Option Cell} {merged : Dict String Value} (hkey : key.isSome)
    (h : (process_what env d key merged).isSome) : process_what env d key merged = key := by
  obtain ⟨cell, rfl⟩ := Option.isSome_iff_exists.mp hkey
  unfold process_what at h ⊢
  split
  · rfl
  · rename_i v hv
    rw [hv] at h
    simp only at h
    split_ifs at h ⊢
    · rfl
    · cases h

theorem history_append {s : State} {value : Value} {key : Option Cell} {alerts : List (List Phase)} :
    State.history env d ⟨key, s.observed ++ [value], alerts⟩
      = s.history env d ++ [d.test.satisfied env value] := by
  unfold State.history
  rw [List.map_append]
  rfl

/-- A step that is decided remembers its observation. -/
theorem remembers_step {s : State} {e : Event} (hs : Remembers env d s)
    (hord : Ordinary env aenv d s e) (hdec : Decided env d s e) :
    Remembers env d (step env aenv d s e) := by
  obtain ⟨last_state, last_value, hkey, hread, hlast⟩ := hs
  cases e with
  | what merged =>
    have hsame : process_what env d s.key merged = s.key :=
      process_what_of_isSome env d (by rw [hkey]; rfl) hord.1
    exact ⟨last_state, last_value, hsame.trans hkey, hread, hlast⟩
  | when data =>
    show Remembers env d (observe env aenv d s data)
    cases hvalue : data.lookup d.name with
    | none =>
      rw [observe_of_none env aenv d hvalue]
      exact ⟨last_state, last_value, hkey, hread, hlast⟩
    | some value =>
      have hreadable : readable value = true :=
        hord.2 value (by rw [Event.values, hvalue]; exact List.mem_singleton_self value)
      have hdecided := hdec value hvalue
      cases hconv : d.test.converts env value with
      | true =>
        rw [if_pos hconv] at hdecided
        obtain ⟨b, hstate, hright⟩ := Test.state_of_converts env hconv
        rw [observe_of_state env aenv d hkey hread hvalue hstate]
        refine ⟨some b, value, rfl, hreadable, ?_⟩
        rw [history_append, hright.mpr hdecided]
        simp
      | false =>
        rw [if_neg (by rw [hconv]; exact Bool.false_ne_true)] at hdecided
        obtain ⟨hstate, hunsat⟩ := Test.state_of_not_converts env hconv
        rw [observe_of_raises env aenv d hkey hvalue hstate]
        refine ⟨last_state, last_value, hkey, hread, ?_⟩
        rw [history_append, hlast, hdecided, hunsat]
        simp

/-- A step keeps the alerts right just when it is decided. -/
theorem classified_step_iff {s : State} {e : Event} (hs : Remembers env d s)
    (hclass : Classified env d s) (hord : Ordinary env aenv d s e) :
    Classified env d (step env aenv d s e) ↔ Decided env d s e := by
  obtain ⟨last_state, last_value, hkey, hread, hlast⟩ := hs
  cases e with
  | what merged => exact ⟨fun _ => trivial, fun _ => hclass⟩
  | when data =>
    show Classified env d (observe env aenv d s data) ↔ _
    cases hvalue : data.lookup d.name with
    | none =>
      rw [observe_of_none env aenv d hvalue]
      exact ⟨fun _ value h => absurd (hvalue.symm.trans h) (by simp), fun _ => hclass⟩
    | some value =>
      have hdecided : Decided env d s (.when data)
          ↔ if d.test.converts env value then d.test.Unmistaken env value
            else (s.history env d).getLastD false = false := by
        refine ⟨fun h => h value hvalue, fun h value' hvalue' => ?_⟩
        cases hvalue.symm.trans hvalue'
        exact h
      rw [hdecided]
      unfold Classified at hclass ⊢
      cases hconv : d.test.converts env value with
      | true =>
        obtain ⟨b, hstate, hright⟩ := Test.state_of_converts env hconv
        rw [observe_of_state env aenv d hkey hread hvalue hstate, history_append, lifecycle_append,
          if_pos rfl, ← hright, ← @phaseOf_inj ((s.history env d).getLastD false)]
        simp [hclass, hlast]
      | false =>
        obtain ⟨hstate, hunsat⟩ := Test.state_of_not_converts env hconv
        rw [observe_of_raises env aenv d hkey hvalue hstate, history_append, lifecycle_append,
          if_neg Bool.false_ne_true, hunsat]
        cases (s.history env d).getLastD false <;> simp [hclass, phaseOf]

/-- **Alert lifecycle**: in a run of ordinary steps the alerts are those of the observations in every
state just when every observation is decided. -/
theorem classified_iff {es : List Event} (h : Run.Along (step env aenv d) (Ordinary env aenv d) start es) :
    Run.Always (step env aenv d) (Classified env d) start es
      ↔ Run.Along (step env aenv d) (Decided env d) start es :=
  Run.always_iff_along_inv (J := Remembers env d) (Q := Ordinary env aenv d)
    (fun _ _ hs hord hdec => remembers_step env aenv d hs hord hdec)
    (fun _ _ hs hclass hord => classified_step_iff env aenv d hs hclass hord)
    ⟨none, .none, rfl, rfl, rfl⟩ (show Classified env d start from rfl) h

/-- A longest stretch of observations that satisfy the condition: one new alert, one continued alert
for each further observation, and one ended alert after it. -/
theorem lifecycle_stretch (n : Nat) (bs : List Bool) :
    lifecycle false (List.replicate (n + 1) true ++ false :: bs)
      = [Phase.new_alert]
        :: (List.replicate n [Phase.continual_alert] ++ [Phase.end_alert] :: lifecycle false bs) := by
  have hrest : ∀ n, lifecycle true (List.replicate n true ++ false :: bs)
      = List.replicate n [Phase.continual_alert] ++ [Phase.end_alert] :: lifecycle false bs := by
    intro n
    induction n with
    | zero => rfl
    | succ n ih => rw [List.replicate_succ, List.cons_append, lifecycle, ih]; rfl
  rw [List.replicate_succ, List.cons_append, lifecycle, hrest n]
  rfl

/-! ### Lost packets -/

/-- Integers are floats, and every text has every expression. -/
def intEnv : Env where
  float := fun
    | .int n => some (.finite n)
    | _ => none
  search := fun _ _ => true

/-- A stanza about the loss of packets. -/
def lossStanza (test : Test) : Stanza := ⟨("device", ".*"), "loss", test⟩

/-- An observed loss. -/
def loss (v : Value) : Event := .when (Dict.ofList [("loss", v)])

theorem classified_loss :
    Run.Always (step intEnv AlertWorkerManager.prefixEnv (lossStanza (.ge (.finite 100))))
      (Classified intEnv (lossStanza (.ge (.finite 100)))) start
      [loss (.int 100), loss (.int 100), loss (.int 0)] := by
  have hloss : ∀ s n, Decided intEnv (lossStanza (.ge (.finite 100))) s (loss (.int n)) := by
    intro s n value hvalue
    cases (show some (Value.int n) = some value from hvalue)
    exact (if_pos rfl).mpr trivial
  have hordinary : Run.Along
      (step intEnv AlertWorkerManager.prefixEnv (lossStanza (.ge (.finite 100))))
      (Ordinary intEnv AlertWorkerManager.prefixEnv (lossStanza (.ge (.finite 100)))) start
      [loss (.int 100), loss (.int 100), loss (.int 0)] := by
    refine ⟨⟨?_, ?_⟩, ⟨?_, ?_⟩, ⟨?_, ?_⟩, trivial⟩ <;> decide
  exact (classified_iff intEnv _ _ hordinary).mpr
    ⟨hloss _ _, hloss _ _, hloss _ _, trivial⟩

/-- A loss that is no number does not end an alert; `le` and `inside` make alerts for values that are
neither. -/
theorem not_classified :
    ¬ Run.Always (step intEnv AlertWorkerManager.prefixEnv (lossStanza (.ge (.finite 100))))
        (Classified intEnv (lossStanza (.ge (.finite 100)))) start
        [loss (.int 100), loss (.str "n/a"), loss (.int 100)]
      ∧ ¬ Run.Always (step intEnv AlertWorkerManager.prefixEnv (lossStanza (.le (.finite 10))))
        (Classified intEnv (lossStanza (.le (.finite 10)))) start [loss (.int 20)]
      ∧ ¬ Run.Always (step ⟨fun v => (Text.int? v.toText).map (fun n => .finite n), fun _ _ => true⟩
          AlertWorkerManager.prefixEnv (lossStanza (.inside "10,20")))
        (Classified ⟨fun v => (Text.int? v.toText).map (fun n => .finite n), fun _ _ => true⟩
          (lossStanza (.inside "10,20"))) start [loss (.int 5)] := by
  refine ⟨fun h => ?_, fun h => ?_, fun h => ?_⟩
  · have hlast := h.last
    unfold Classified at hlast
    revert hlast
    decide
  · have hlast := h.last
    unfold Classified at hlast
    revert hlast
    decide
  · have hlast := h.last
    unfold Classified at hlast
    revert hlast
    decide

/-! ### Single losses -/

/-- With `ge` nothing is mistaken. -/
theorem stateOf_iff_loss :
    (stateOf intEnv (lossStanza (.ge (.finite 100))) (none, .none)
        (Dict.ofList [("loss", .int 100)]) = some true
      ↔ (Test.ge (.finite 100)).satisfied intEnv (.int 100) = true)
    ∧ (Test.ge (.finite 100)).satisfied intEnv (.int 100) = true := by
  have hunmistaken : (Test.ge (.finite 100)).converts intEnv (.int 100) = true →
      (Test.ge (.finite 100)).Unmistaken intEnv (.int 100) := fun _ => trivial
  exact ⟨(stateOf_iff intEnv (lossStanza (.ge (.finite 100))) (none, .none) rfl).mpr hunmistaken,
    by decide⟩

/-- With `le` 10 the state of 20 is true and that of 5 false; with `inside` 10 and 20 it is false
for 15 and true for 5. -/
theorem not_satisfied_le_inside :
    stateOf intEnv (lossStanza (.le (.finite 10))) (none, .none)
        (Dict.ofList [("loss", .int 20)]) = some true
      ∧ (Test.le (.finite 10)).satisfied intEnv (.int 20) = false
      ∧ stateOf intEnv (lossStanza (.le (.finite 10))) (none, .none)
        (Dict.ofList [("loss", .int 5)]) = some false
      ∧ (Test.le (.finite 10)).satisfied intEnv (.int 5) = true
      ∧ ∀ n ∈ [(15 : ℤ), 5],
        stateOf ⟨fun v => (Text.int? v.toText).map (fun n => .finite n), fun _ _ => true⟩
            (lossStanza (.inside "10,20")) (none, .none) (Dict.ofList [("loss", .int n)])
          = some (!(Test.inside "10,20").satisfied
            ⟨fun v => (Text.int? v.toText).map (fun n => .finite n), fun _ _ => true⟩
            (.int n)) := by
  decide

end AnalyseWorker
