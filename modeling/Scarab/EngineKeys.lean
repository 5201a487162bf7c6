import Scarab.EngineTypes
import Scarab.TextEncoding

/-!
# Idempotency keys

The outbox drops a message whose key it has seen, so each key's text is built here exactly
as the engine formats it.
-/
namespace Scarab.Engine

/-- `launch:{run}/{step}/{attempt}` -/
def launchKey (run : RunId) (step : StepId) (attempt : AttemptId) : Text :=
  "launch:".toList ++ run.text ++ '/' :: step.text ++ '/' :: attempt.text

/-- `cancel:{run}:{step}/{attempt}` -/
def cancelAttemptKey (run : RunId) (step : StepId) (attempt : AttemptId) : Text :=
  "cancel:".toList ++ run.text ++ ':' :: step.text ++ '/' :: attempt.text

/-- The cancel key with `:launch` appended, for a unit whose launch outlived its attempt. -/
def lateLaunchKey (run : RunId) (step : StepId) (attempt : AttemptId) : Text :=
  cancelAttemptKey run step attempt ++ ":launch".toList

/-- `supersede:{run}:{target}:{step}/{attempt}` -/
def supersedeKey (run : RunId) (target step : StepId) (attempt : AttemptId) : Text :=
  "supersede:".toList ++ run.text ++ ':' :: target.text ++ ':' :: step.text ++ '/' :: attempt.text

/-- Sixteen hexadecimal digits. -/
def hex16 (n : UInt64) : Text :=
  let digits := Nat.toDigits 16 n.toNat
  List.replicate (16 - digits.length) '0' ++ digits

/-- `cancel:{run}:services:{nonce}` -/
def cancelServicesKey (run : RunId) (nonce : UInt64) : Text :=
  "cancel:".toList ++ run.text ++ ":services:".toList ++ hex16 nonce

def RunStatus.text : RunStatus → Text
  | .pending => "Pending".toList
  | .running => "Running".toList
  | .suspended => "Suspended".toList
  | .succeeded => "Succeeded".toList
  | .failed => "Failed".toList
  | .cancelled => "Cancelled".toList
  | .deadLettered => "DeadLettered".toList

/-- `status:{run}:g{generation}:{to}` -/
def runStatusPostKey (run : RunId) (generation : ℕ) (to_ : RunStatus) : Text :=
  "status:".toList ++ run.text ++ ":g".toList ++ Nat.toDigits 10 generation ++ ':' :: to_.text

/-- `finished:{run}:g{generation}:{to}` -/
def runFinishedKey (run : RunId) (generation : ℕ) (to_ : RunStatus) : Text :=
  "finished:".toList ++ run.text ++ ":g".toList ++ Nat.toDigits 10 generation ++ ':' :: to_.text

theorem split_last {c : Char} {x x' z z' : Text} (hz : c ∉ z) (hz' : c ∉ z')
    (h : x ++ c :: z = x' ++ c :: z') : x = x' ∧ z = z' := by
  have hrev := congrArg List.reverse h
  simp only [List.reverse_append, List.reverse_cons, List.append_assoc, List.singleton_append]
    at hrev
  obtain ⟨h1, h2⟩ := split_first (by simpa using hz) (by simpa using hz') hrev
  exact ⟨List.reverse_injective h2, List.reverse_injective h1⟩

theorem AttemptId.text_inj {a a' : AttemptId} (h : a.text = a'.text) : a = a' := by
  have hd := congrArg (Nat.ofDigitChars 10 · 0) (List.cons.inj h).2
  simp only [Nat.ofDigitChars_ten_toDigits] at hd
  cases a
  cases a'
  exact congrArg _ hd

/-- An attempt's text is made of a letter and digits. -/
theorem AttemptId.not_mem_text {c : Char} (hc : c.isDigit = false) (ha : c ≠ 'a') (a : AttemptId) :
    c ∉ a.text := by
  intro hmem
  rcases List.mem_cons.mp hmem with rfl | hmem
  · exact ha rfl
  · have := Nat.isDigit_of_mem_toDigits (by decide) le_rfl hmem
    simp [hc] at this

theorem RunId.ext {r r' : RunId} (h : r.text = r'.text) : r = r' := by
  cases r
  cases r'
  congr

section

variable {run run' : RunId} {step step' target target' : StepId} {attempt attempt' : AttemptId}

/-- The part of a key that names a step and an attempt, split at its last slash. -/
theorem stepAttempt_inj {x x' : Text}
    (h : x ++ '/' :: attempt.text = x' ++ '/' :: attempt'.text) :
    x = x' ∧ attempt = attempt' := by
  obtain ⟨hx, ha⟩ := split_last (AttemptId.not_mem_text (by decide) (by decide) attempt)
    (AttemptId.not_mem_text (by decide) (by decide) attempt') h
  exact ⟨hx, AttemptId.text_inj ha⟩

theorem StepId.ext {s s' : StepId} (h : s.text = s'.text) : s = s' := by
  cases s
  cases s'
  exact congrArg _ h

theorem launchKey_inj (h : launchKey run step attempt = launchKey run' step' attempt') :
    run = run' ∧ step = step' ∧ attempt = attempt' := by
  unfold launchKey at h
  obtain ⟨h, ha⟩ := stepAttempt_inj h
  rw [List.append_assoc, List.append_assoc] at h
  obtain ⟨hr, hs⟩ := split_first run.plain.2 run'.plain.2 (List.append_cancel_left h)
  exact ⟨RunId.ext hr, StepId.ext hs, ha⟩

theorem cancelAttemptKey_inj
    (h : cancelAttemptKey run step attempt = cancelAttemptKey run' step' attempt') :
    run = run' ∧ step = step' ∧ attempt = attempt' := by
  unfold cancelAttemptKey at h
  obtain ⟨h, ha⟩ := stepAttempt_inj h
  rw [List.append_assoc, List.append_assoc] at h
  obtain ⟨hr, hs⟩ := split_first run.plain.1 run'.plain.1 (List.append_cancel_left h)
  exact ⟨RunId.ext hr, StepId.ext hs, ha⟩

theorem lateLaunchKey_inj
    (h : lateLaunchKey run step attempt = lateLaunchKey run' step' attempt') :
    run = run' ∧ step = step' ∧ attempt = attempt' :=
  cancelAttemptKey_inj (List.append_cancel_right h)

/-- Two supersede keys agree only on one run, one attempt and one text `{target}:{step}`. -/
theorem supersedeKey_inj
    (h : supersedeKey run target step attempt = supersedeKey run' target' step' attempt') :
    run = run' ∧ target.text ++ ':' :: step.text = target'.text ++ ':' :: step'.text ∧
      attempt = attempt' := by
  unfold supersedeKey at h
  obtain ⟨h, ha⟩ := stepAttempt_inj h
  rw [List.append_assoc, List.append_assoc, List.append_assoc, List.append_assoc] at h
  obtain ⟨hr, hs⟩ := split_first run.plain.1 run'.plain.1 (List.append_cancel_left h)
  exact ⟨RunId.ext hr, hs, ha⟩

/-- The cancel key's last part holds no colon, the late launch's does. -/
theorem cancelAttemptKey_ne_lateLaunchKey :
    cancelAttemptKey run step attempt ≠ lateLaunchKey run' step' attempt' := by
  intro h
  unfold lateLaunchKey cancelAttemptKey at h
  rw [List.append_assoc _ _ ":launch".toList, List.cons_append] at h
  have hno : '/' ∉ attempt'.text ++ ":launch".toList := by
    rw [List.mem_append, not_or]
    exact ⟨attempt'.not_mem_text (by decide) (by decide), by decide⟩
  have htail := (split_last (attempt.not_mem_text (by decide) (by decide)) hno h).2
  have hc : ':' ∈ attempt.text := by
    rw [htail]
    exact List.mem_append_right _ (by decide)
  exact attempt.not_mem_text (by decide) (by decide) hc

/-- Every key of an attempt holds a slash. -/
theorem slash_mem_cancelAttemptKey : '/' ∈ cancelAttemptKey run step attempt :=
  List.mem_append_right _ List.mem_cons_self

end

theorem RunStatus.text_inj {s s' : RunStatus} (h : s.text = s'.text) : s = s' := by
  cases s <;> cases s' <;> first | rfl | exact absurd h (by decide)

/-- The part of a post's key after its label: a run, a generation and a status. -/
theorem postKey_inj {generation generation' : ℕ} {to_ to_' : RunStatus} {run run' : RunId}
    (h : run.text ++ ":g".toList ++ Nat.toDigits 10 generation ++ ':' :: to_.text =
      run'.text ++ ":g".toList ++ Nat.toDigits 10 generation' ++ ':' :: to_'.text) :
    run = run' ∧ generation = generation' ∧ to_ = to_' := by
  have hg : ":g".toList = [':', 'g'] := rfl
  simp only [hg, List.append_assoc, List.cons_append, List.nil_append] at h
  obtain ⟨hr, h⟩ := split_first run.plain.1 run'.plain.1 h
  have hdigits : ∀ n, ':' ∉ Nat.toDigits 10 n := by
    intro n hmem
    have := Nat.isDigit_of_mem_toDigits (by decide) le_rfl hmem
    simp at this
  obtain ⟨hn, ht⟩ := split_first (hdigits _) (hdigits _) (List.cons.inj h).2
  have hd := congrArg (Nat.ofDigitChars 10 · 0) hn
  simp only [Nat.ofDigitChars_ten_toDigits] at hd
  exact ⟨RunId.ext hr, hd, RunStatus.text_inj ht⟩

theorem runStatusPostKey_inj {run run' : RunId} {generation generation' : ℕ}
    {to_ to_' : RunStatus}
    (h : runStatusPostKey run generation to_ = runStatusPostKey run' generation' to_') :
    run = run' ∧ generation = generation' ∧ to_ = to_' := by
  unfold runStatusPostKey at h
  rw [List.append_assoc "status:".toList, List.append_assoc "status:".toList,
    List.append_assoc "status:".toList, List.append_assoc "status:".toList,
    List.append_assoc "status:".toList, List.append_assoc "status:".toList] at h
  exact postKey_inj (List.append_cancel_left h)

theorem runFinishedKey_inj {run run' : RunId} {generation generation' : ℕ}
    {to_ to_' : RunStatus}
    (h : runFinishedKey run generation to_ = runFinishedKey run' generation' to_') :
    run = run' ∧ generation = generation' ∧ to_ = to_' := by
  unfold runFinishedKey at h
  rw [List.append_assoc "finished:".toList, List.append_assoc "finished:".toList,
    List.append_assoc "finished:".toList, List.append_assoc "finished:".toList,
    List.append_assoc "finished:".toList, List.append_assoc "finished:".toList] at h
  exact postKey_inj (List.append_cancel_left h)

theorem slash_not_mem_toDigits (n : ℕ) : '/' ∉ Nat.toDigits 16 n := by
  induction n using Nat.strong_induction_on with
  | h n ih =>
    rw [Nat.toDigits_eq_if (by decide)]
    split_ifs with hn
    · simp
    · rw [List.mem_append, not_or]
      exact ⟨ih (n / 16) (by omega), by simp⟩

/-- The key of a run's services holds none. -/
theorem slash_not_mem_cancelServicesKey (run : RunId) (nonce : UInt64) :
    '/' ∉ cancelServicesKey run nonce := by
  unfold cancelServicesKey hex16
  simp only [List.mem_append, not_or]
  refine ⟨⟨⟨by decide, run.plain.2⟩, by decide⟩, ?_, slash_not_mem_toDigits _⟩
  intro h
  have := List.eq_of_mem_replicate h
  simp at this

/-- What stands before a key's first colon. -/
def label (key : Text) : Text := key.takeWhile (· ≠ ':')

section

variable (run : RunId) (step target : StepId) (attempt : AttemptId) (generation : ℕ)
  (to_ : RunStatus)

@[simp] theorem label_launchKey : label (launchKey run step attempt) = "launch".toList := rfl

@[simp] theorem label_cancelAttemptKey :
    label (cancelAttemptKey run step attempt) = "cancel".toList := rfl

@[simp] theorem label_lateLaunchKey :
    label (lateLaunchKey run step attempt) = "cancel".toList := rfl

@[simp] theorem label_cancelServicesKey (nonce : UInt64) :
    label (cancelServicesKey run nonce) = "cancel".toList := rfl

@[simp] theorem label_supersedeKey :
    label (supersedeKey run target step attempt) = "supersede".toList := rfl

@[simp] theorem label_runStatusPostKey :
    label (runStatusPostKey run generation to_) = "status".toList := rfl

@[simp] theorem label_runFinishedKey :
    label (runFinishedKey run generation to_) = "finished".toList := rfl

end

end Scarab.Engine
