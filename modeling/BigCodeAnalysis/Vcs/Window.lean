import BigCodeAnalysis.Languages.CfgPredicate
import BigCodeAnalysis.Vcs.Replay

/-! The parser of time windows: a number with a unit, or an ISO 8601 duration of date
fields, in seconds. An accepted window is a positive `i64`. `debug` and `debugChar` stand
for the quoted form of a text and of a character in the messages. -/

namespace BigCodeAnalysis.Vcs

open Languages.CfgPredicate (trim)

def secondsPerDay : ℤ := 86400

def secondsPerWeek : ℤ := 7 * secondsPerDay

def secondsPerMonth : ℤ := 2629746

def secondsPerYear : ℤ := 31556952

def windowFormatHint : String :=
  "expected <N>d|w|mo|y or an ISO 8601 duration, e.g. 12mo, 90d, or P1Y6M"

/-! ### Machine integers -/

def IsI64 (value : ℤ) : Prop := i64Min ≤ value ∧ value ≤ i64Max

instance (value : ℤ) : Decidable (IsI64 value) := inferInstanceAs (Decidable (_ ∧ _))

def toI64 (value : ℤ) : Option ℤ := if IsI64 value then some value else none

def checkedMul (a b : ℤ) : Option ℤ := toI64 (a * b)

def checkedAdd (a b : ℤ) : Option ℤ := toI64 (a + b)

theorem toI64_eq_some {value result : ℤ} :
    toI64 value = some result ↔ value = result ∧ IsI64 result := by
  rw [toI64]
  split_ifs with h
  · rw [Option.some_inj]
    exact ⟨fun heq => ⟨heq, heq ▸ h⟩, fun heq => heq.1⟩
  · exact iff_of_false nofun fun heq => h (heq.1 ▸ heq.2)

/-- The value of a run of ASCII digits. -/
def decimal (digits : List Char) : Option ℕ :=
  if digits ≠ [] ∧ digits.all Char.isDigit then
    some (digits.foldl (fun n c => n * 10 + (c.toNat - '0'.toNat)) 0)
  else none

/-- `str::parse::<i64>`: digits behind at most one sign. -/
def parseI64 : List Char → Option ℤ
  | '+' :: digits => (decimal digits).bind fun n => toI64 n
  | '-' :: digits => (decimal digits).bind fun n => toI64 (-n)
  | digits => (decimal digits).bind fun n => toI64 n

/-! ### The parser -/

section

variable (debug : String → String) (debugChar : Char → String)

def windowError (spec problem : String) : String :=
  debug spec ++ " " ++ problem ++ " (" ++ windowFormatHint ++ ")"

/-- Seconds per unit. A bare `m` could be minutes or months and is none. -/
def unitFactor (unit : List Char) : Option ℤ :=
  match String.ofList unit with
  | "d" => some secondsPerDay
  | "w" => some secondsPerWeek
  | "mo" => some secondsPerMonth
  | "y" => some secondsPerYear
  | _ => none

def rejectNonPositive (seconds : ℤ) (spec : String) : Except String ℤ :=
  if seconds ≤ 0 then .error (windowError debug spec "is not a positive duration")
  else .ok seconds

def checkedWindow (magnitude factor : ℤ) (spec : String) : Except String ℤ :=
  if magnitude < 0 then .error (windowError debug spec "is negative")
  else
    match checkedMul magnitude factor with
    | none => .error (windowError debug spec "overflows")
    | some product => rejectNonPositive debug product spec

/-- Date designators only: `M` is months. -/
def isoFactor : Char → Option ℤ
  | 'Y' => some secondsPerYear
  | 'M' => some secondsPerMonth
  | 'W' => some secondsPerWeek
  | 'D' => some secondsPerDay
  | _ => none

/-- One character of a duration, behind the seconds so far and the pending digits. -/
def isoStep (original : String) (state : ℤ × List Char) (ch : Char) :
    Except String (ℤ × List Char) :=
  let (total, digits) := state
  if ch.isDigit then .ok (total, digits ++ [ch])
  else if digits = [] then
    .error (windowError debug original ("field " ++ debugChar ch ++ " has no magnitude"))
  else
    match parseI64 digits with
    | none => .error (windowError debug original "has a non-numeric magnitude")
    | some magnitude =>
      match isoFactor ch with
      | none =>
        .error (windowError debug original
          ("has an unsupported ISO 8601 designator " ++ debugChar ch))
      | some factor =>
        match (checkedMul magnitude factor).bind (checkedAdd total) with
        | none => .error (windowError debug original "overflows")
        | some total => .ok (total, [])

/-- The duration behind its `P`. -/
def parseIso8601 (body : List Char) (original : String) : Except String ℤ :=
  if body = [] then .error (windowError debug original "has no fields")
  else do
    let (total, digits) ← body.foldlM (isoStep debug debugChar original) (0, [])
    if digits ≠ [] then
      .error (windowError debug original
        ("ends with a magnitude " ++ debug (String.ofList digits) ++ " lacking a designator"))
    else rejectNonPositive debug total original

def parseWindow (spec : String) : Except String ℤ :=
  match trim spec.toList with
  | [] => .error (windowError debug spec "is empty")
  | 'P' :: rest => parseIso8601 debug debugChar rest spec
  | 'p' :: rest => parseIso8601 debug debugChar rest spec
  | trimmed =>
    let number := trimmed.takeWhile fun c => !c.isAlpha
    let unit := trimmed.dropWhile fun c => !c.isAlpha
    if unit = [] then .error (windowError debug spec "has no unit")
    else
      match parseI64 (trim number) with
      | none => .error (windowError debug spec "has a non-numeric magnitude")
      | some magnitude =>
        match unitFactor unit with
        | none =>
          .error (windowError debug spec ("has an unknown unit " ++ debug (String.ofList unit)))
        | some factor => checkedWindow debug magnitude factor spec

end

/-! ### Accepted windows -/

section

variable {debug : String → String} {debugChar : Char → String}

theorem rejectNonPositive_ok {seconds span : ℤ} {spec : String}
    (h : rejectNonPositive debug seconds spec = .ok span) : seconds = span ∧ 0 < span := by
  unfold rejectNonPositive at h
  split_ifs at h with hpos
  cases h
  exact ⟨rfl, not_le.mp hpos⟩

theorem checkedWindow_ok {magnitude factor span : ℤ} {spec : String}
    (h : checkedWindow debug magnitude factor spec = .ok span) : 0 < span ∧ IsI64 span := by
  unfold checkedWindow at h
  split_ifs at h
  cases hmul : checkedMul magnitude factor with
  | none =>
    rw [hmul] at h
    cases h
  | some product =>
    rw [hmul] at h
    obtain ⟨rfl, hpos⟩ := rejectNonPositive_ok h
    exact ⟨hpos, (toI64_eq_some.mp hmul).2⟩

theorem isoStep_ok {original : String} {state next : ℤ × List Char} {ch : Char}
    (h : isoStep debug debugChar original state ch = .ok next) (hstate : IsI64 state.1) :
    IsI64 next.1 := by
  obtain ⟨total, digits⟩ := state
  unfold isoStep at h
  dsimp only at h
  split_ifs at h
  · cases h
    exact hstate
  cases hmag : parseI64 digits with
  | none =>
    rw [hmag] at h
    cases h
  | some magnitude =>
    cases hfactor : isoFactor ch with
    | none =>
      rw [hmag, hfactor] at h
      cases h
    | some factor =>
      cases hsum : (checkedMul magnitude factor).bind (checkedAdd total) with
      | none =>
        rw [hmag, hfactor] at h
        dsimp only at h
        rw [hsum] at h
        cases h
      | some sum =>
        rw [hmag, hfactor] at h
        dsimp only at h
        rw [hsum] at h
        cases h
        obtain ⟨product, -, hadd⟩ := Option.bind_eq_some_iff.mp hsum
        exact (toI64_eq_some.mp hadd).2

theorem foldlM_isoStep_ok {original : String} {body : List Char} : ∀ {state next},
    body.foldlM (isoStep debug debugChar original) state = .ok next → IsI64 state.1 →
    IsI64 next.1 := by
  induction body with
  | nil =>
    intro state next h hstate
    cases h
    exact hstate
  | cons ch body ih =>
    intro state next h hstate
    rw [List.foldlM_cons] at h
    cases hstep : isoStep debug debugChar original state ch with
    | error e =>
      rw [hstep] at h
      cases h
    | ok mid =>
      rw [hstep] at h
      exact ih h (isoStep_ok hstep hstate)

theorem parseIso8601_ok {body : List Char} {original : String} {span : ℤ}
    (h : parseIso8601 debug debugChar body original = .ok span) : 0 < span ∧ IsI64 span := by
  unfold parseIso8601 at h
  split_ifs at h
  cases hfold : body.foldlM (isoStep debug debugChar original) (0, []) with
  | error e =>
    rw [hfold] at h
    cases h
  | ok next =>
    rw [hfold] at h
    have hsum := foldlM_isoStep_ok hfold (by decide : IsI64 0)
    have hrest : (if next.2 ≠ [] then _ else rejectNonPositive debug next.1 original) =
        .ok span := h
    split_ifs at hrest
    obtain ⟨rfl, hpos⟩ := rejectNonPositive_ok hrest
    exact ⟨hpos, hsum⟩

/-- An accepted window is a positive `i64`. -/
theorem parseWindow_ok {spec : String} {span : ℤ}
    (h : parseWindow debug debugChar spec = .ok span) : 0 < span ∧ IsI64 span := by
  unfold parseWindow at h
  split at h
  · cases h
  · exact parseIso8601_ok h
  · exact parseIso8601_ok h
  · dsimp only at h
    split_ifs at h
    split at h
    · cases h
    · split at h
      · cases h
      · exact checkedWindow_ok h

end

end BigCodeAnalysis.Vcs
