import Scarab.EngineTypes

/-!
# A step's Attempts

Attempts are minted `a1`, `a2`, ... and never removed, so the list carries its own
numbering and its last entry is the latest Attempt.
-/
namespace Scarab.Engine

/-- The Attempts of one step in mint order. -/
structure Attempts where
  entries : List Attempt
  numbered : entries.map (·.id.num) = List.range' 1 entries.length

namespace Attempts

instance : DecidableEq Attempts := fun a b =>
  decidable_of_iff (a.entries = b.entries) (by cases a; cases b; simp)

def empty : Attempts := ⟨[], rfl⟩

/-- The id the next minted Attempt gets. -/
def next (h : Attempts) : AttemptId := ⟨h.entries.length + 1⟩

/-- Append a freshly minted Attempt; one whose id is taken is left as it is. -/
def record (h : Attempts) (a : Attempt) : Attempts :=
  if hid : a.id = h.next then
    ⟨h.entries ++ [a], by simp [h.numbered, hid, next, List.range'_concat, Nat.add_comm]⟩
  else h

/-- Rewrite the Attempt `id`, keeping its id. -/
def update (h : Attempts) (id : AttemptId) (f : Attempt → Attempt) : Attempts :=
  ⟨h.entries.map fun a => if a.id = id then { f a with id := a.id } else a, by
    rw [List.length_map, ← h.numbered, List.map_map]
    refine List.map_congr_left fun a _ => ?_
    simp only [Function.comp_apply]
    split_ifs <;> rfl⟩

/-- Stamp an Attempt, never over a terminal-by-intent outcome. -/
def stamp (h : Attempts) (id : AttemptId) (s : AttemptStamp) : Attempts :=
  h.update id fun a =>
    if a.outcome.byIntent then a
    else match s with
      | .outcome o => { a with outcome := o }
      | .failure kind detail =>
          { a with failure := some kind, failureDetail := detail, outcome := .failed }

def stamp? (h : Attempts) : Option (AttemptId × AttemptStamp) → Attempts
  | none => h
  | some (id, s) => h.stamp id s

def last? (h : Attempts) : Option Attempt := h.entries.getLast?

def find? (h : Attempts) (id : AttemptId) : Option Attempt := h.entries.find? (·.id = id)

/-- The latest Attempt's id. -/
def frontier (h : Attempts) : Option AttemptId := h.last?.map (·.id)

def outcome? (h : Attempts) (id : AttemptId) : Option AttemptOutcome :=
  (h.find? id).map (·.outcome)

/-- The latest Attempt, while it is still running. -/
def running? (h : Attempts) : Option Attempt := h.last?.filter (·.outcome = .running)

@[ext] theorem ext {h h' : Attempts} (e : h.entries = h'.entries) : h = h' := by
  cases h
  cases h'
  congr

variable {h : Attempts} {a b : Attempt} {id id' : AttemptId} {f : Attempt → Attempt}

theorem num_getElem (h : Attempts) {i : ℕ} (hi : i < h.entries.length) :
    h.entries[i].id.num = i + 1 := by
  have key : (h.entries.map (·.id.num))[i]? = (List.range' 1 h.entries.length)[i]? := by
    rw [h.numbered]
  simpa [hi, Nat.add_comm] using key

theorem num_bounds (ha : a ∈ h.entries) : 1 ≤ a.id.num ∧ a.id.num ≤ h.entries.length := by
  obtain ⟨i, hi, rfl⟩ := List.getElem_of_mem ha
  rw [h.num_getElem hi]
  omega

theorem eq_of_id (ha : a ∈ h.entries) (hb : b ∈ h.entries) (hid : a.id = b.id) : a = b := by
  obtain ⟨i, hi, rfl⟩ := List.getElem_of_mem ha
  obtain ⟨j, hj, rfl⟩ := List.getElem_of_mem hb
  have hnum := congrArg AttemptId.num hid
  rw [h.num_getElem hi, h.num_getElem hj] at hnum
  obtain rfl : i = j := by omega
  rfl

theorem find?_eq_some : h.find? id = some a ↔ a ∈ h.entries ∧ a.id = id := by
  constructor
  · intro hf
    exact ⟨List.mem_of_find?_eq_some hf, by simpa using List.find?_some hf⟩
  · rintro ⟨ha, rfl⟩
    obtain ⟨b, hb⟩ : ∃ b, h.find? a.id = some b := by
      rw [← Option.isSome_iff_exists, find?, List.find?_isSome]
      exact ⟨a, ha, by simp⟩
    have hba : b = a := eq_of_id (List.mem_of_find?_eq_some hb) ha (by simpa using List.find?_some hb)
    rw [hb, hba]

theorem last?_mem (hl : h.last? = some a) : a ∈ h.entries := List.mem_of_getLast? hl

theorem last?_num (hl : h.last? = some a) : a.id.num = h.entries.length := by
  rw [last?, List.getLast?_eq_getElem?] at hl
  obtain ⟨hi, rfl⟩ := List.getElem?_eq_some_iff.mp hl
  rw [h.num_getElem hi]
  omega

theorem frontier_eq_some : h.frontier = some id ↔ ∃ a, h.last? = some a ∧ a.id = id := by
  simp [frontier]

theorem frontier_num (hf : h.frontier = some id) : id.num = h.entries.length := by
  obtain ⟨a, hl, rfl⟩ := frontier_eq_some.mp hf
  exact last?_num hl

theorem frontier_eq_none : h.frontier = none ↔ h.entries = [] := by
  simp [frontier, last?]

@[simp] theorem entries_record_next (ha : a.id = h.next) :
    (h.record a).entries = h.entries ++ [a] := by
  simp [record, ha]

theorem record_of_ne (ha : a.id ≠ h.next) : h.record a = h := by
  simp [record, ha]

@[simp] theorem last?_record_next (ha : a.id = h.next) : (h.record a).last? = some a := by
  simp [last?, ha]

theorem entries_update : (h.update id f).entries =
    h.entries.map fun a => if a.id = id then { f a with id := a.id } else a := rfl

@[simp] theorem length_update : (h.update id f).entries.length = h.entries.length := by
  simp [entries_update]

theorem last?_update : (h.update id f).last? =
    h.last?.map fun a => if a.id = id then { f a with id := a.id } else a := by
  simp [last?, entries_update, List.getLast?_map]

@[simp] theorem frontier_update : (h.update id f).frontier = h.frontier := by
  rw [frontier, frontier, last?_update, Option.map_map]
  congr 1
  funext a
  simp only [Function.comp_apply]
  split_ifs <;> rfl

theorem outcome?_of_mem (ha : a ∈ h.entries) : h.outcome? a.id = some a.outcome := by
  rw [outcome?, find?_eq_some.mpr ⟨ha, rfl⟩]
  rfl

theorem running?_eq_some : h.running? = some a ↔ h.last? = some a ∧ a.outcome = .running := by
  simp [running?, Option.filter_eq_some_iff]

/-- What every commit keeps: no Attempt is dropped, one that ended stays ended, and one that
ended by intent keeps that outcome. -/
def Leads (h h' : Attempts) : Prop :=
  ∀ a ∈ h.entries, ∃ a' ∈ h'.entries, a'.id = a.id ∧
    (a.outcome ≠ .running → a'.outcome ≠ .running) ∧
    (a.outcome.byIntent = true → a'.outcome = a.outcome)

theorem leads_refl (h : Attempts) : h.Leads h := fun a ha =>
  ⟨a, ha, rfl, fun hn => hn, fun _ => rfl⟩

theorem Leads.trans {h₁ h₂ : Attempts} (h01 : h.Leads h₁) (h12 : h₁.Leads h₂) : h.Leads h₂ := by
  intro a ha
  obtain ⟨b, hb, hid, hrun, hint⟩ := h01 a ha
  obtain ⟨c, hc, hid', hrun', hint'⟩ := h12 b hb
  refine ⟨c, hc, hid'.trans hid, fun hn => hrun' (hrun hn), fun hi => ?_⟩
  rw [← hint hi]
  exact hint' (by rwa [hint hi])

theorem leads_record (h : Attempts) (a : Attempt) : h.Leads (h.record a) := by
  intro b hb
  refine ⟨b, ?_, rfl, fun hn => hn, fun _ => rfl⟩
  by_cases ha : a.id = h.next
  · rw [entries_record_next ha]
    exact List.mem_append_left _ hb
  · rwa [record_of_ne ha]

/-- Rewriting an Attempt leads on when it reopens nothing and keeps outcomes by intent. -/
theorem leads_update (hrun : ∀ a ∈ h.entries, a.id = id → a.outcome ≠ .running →
    (f a).outcome ≠ .running)
    (hint : ∀ a ∈ h.entries, a.id = id → a.outcome.byIntent = true → (f a).outcome = a.outcome) :
    h.Leads (h.update id f) := by
  intro a ha
  refine ⟨_, List.mem_map_of_mem ha, ?_⟩
  by_cases hid : a.id = id
  · simp only [hid, if_true]
    exact ⟨trivial, hrun a ha hid, hint a ha hid⟩
  · simp [hid]

theorem leads_stamp {s : AttemptStamp} (hs : s ≠ .outcome .running) :
    h.Leads (h.stamp id s) := by
  refine leads_update (fun a _ _ hn => ?_) fun a _ _ hi => by simp [hi]
  split_ifs
  · exact hn
  · cases s with
    | outcome o => exact fun ho => hs (congrArg _ ho)
    | failure kind detail => simp

theorem leads_stamp? {s : Option (AttemptId × AttemptStamp)}
    (hs : ∀ x, s = some x → x.2 ≠ .outcome .running) : h.Leads (h.stamp? s) := by
  cases s with
  | none => exact leads_refl h
  | some x => exact leads_stamp (hs x rfl)

theorem Leads.length_le {h' : Attempts} (hl : h.Leads h') :
    h.entries.length ≤ h'.entries.length := by
  cases hlast : h.last? with
  | none =>
    rw [last?, List.getLast?_eq_none_iff] at hlast
    simp [hlast]
  | some a =>
    obtain ⟨a', ha', hid, -⟩ := hl a (last?_mem hlast)
    rw [← last?_num hlast, ← hid]
    exact (num_bounds ha').2

@[simp] theorem length_stamp {s : AttemptStamp} :
    (h.stamp id s).entries.length = h.entries.length := length_update

@[simp] theorem frontier_stamp {s : AttemptStamp} : (h.stamp id s).frontier = h.frontier :=
  frontier_update

@[simp] theorem frontier_stamp? {s : Option (AttemptId × AttemptStamp)} :
    (h.stamp? s).frontier = h.frontier := by
  cases s <;> simp [stamp?]

/-- The latest Attempt after an update ran before it. -/
theorem last?_running_of_update (hl : (h.update id f).last? = some a) (hr : a.outcome = .running)
    (hf : ∀ b, b.id = id → (f b).outcome = .running → b.outcome = .running) :
    ∃ b, h.last? = some b ∧ b.id = a.id ∧ b.outcome = .running := by
  rw [last?_update] at hl
  obtain ⟨b, hb, rfl⟩ := Option.map_eq_some_iff.mp hl
  refine ⟨b, hb, ?_⟩
  by_cases hid : b.id = id
  · simp only [hid, if_true] at hr ⊢
    exact ⟨trivial, hf b hid hr⟩
  · simp only [hid, if_false] at hr ⊢
    exact ⟨trivial, hr⟩

theorem last?_running_of_stamp {s : AttemptStamp} (hs : s ≠ .outcome .running)
    (hl : (h.stamp id s).last? = some a) (hr : a.outcome = .running) :
    ∃ b, h.last? = some b ∧ b.id = a.id ∧ b.outcome = .running := by
  refine last?_running_of_update hl hr fun b _ hb => ?_
  split_ifs at hb
  · exact hb
  · cases s with
    | outcome o => exact absurd (congrArg _ hb) hs
    | failure kind detail => simp at hb

end Attempts
end Scarab.Engine
