import Mathlib

/-!
# Rows under transactions

A keyed table used by concurrent transactions at READ COMMITTED. A transaction sees the
committed rows under its own pending writes. A write or a locking read holds a row lock
until the transaction ends, and a request that would have to wait is not granted.
-/
set_option linter.unusedSectionVars false

namespace Scarab.RowStore

inductive LockMode where
  | keyShare
  | share
  | noKeyUpdate
  | update
  deriving DecidableEq, Repr

/-- The modes two transactions cannot both hold on one row. -/
def LockMode.conflicts : LockMode → LockMode → Bool
  | .update, _ => true
  | _, .update => true
  | .share, .noKeyUpdate => true
  | .noKeyUpdate, .share => true
  | .noKeyUpdate, .noKeyUpdate => true
  | _, _ => false

theorem LockMode.conflicts_comm (m n : LockMode) : m.conflicts n = n.conflicts m := by
  cases m <;> cases n <;> rfl

structure Lock (κ : Type) where
  tx : ℕ
  key : κ
  mode : LockMode
  deriving DecidableEq

/-- A pending version of a row; `none` deletes it. -/
structure Write (κ ρ : Type) where
  tx : ℕ
  key : κ
  row : Option ρ

structure Db (κ ρ : Type) where
  rows : List ρ
  writes : List (Write κ ρ)
  locks : List (Lock κ)
  opened : List ℕ
  nextTx : ℕ

variable {κ ρ : Type} [DecidableEq κ] (key : ρ → κ)

namespace Db

def empty : Db κ ρ := ⟨[], [], [], [], 0⟩

/-- What a transaction reads: the committed rows it has not rewritten, and its own versions. -/
def view (t : ℕ) (db : Db κ ρ) : List ρ :=
  db.rows.filter (fun r => !db.writes.any fun w => w.tx == t && w.key == key r) ++
    db.writes.filterMap fun w => if w.tx = t then w.row else none

def start (db : Db κ ρ) : ℕ × Db κ ρ :=
  (db.nextTx, { db with opened := db.nextTx :: db.opened, nextTx := db.nextTx + 1 })

/-- No other transaction holds a conflicting lock on the row. -/
def grantable (t : ℕ) (k : κ) (m : LockMode) (db : Db κ ρ) : Bool :=
  db.locks.all fun l => l.tx == t || l.key != k || !l.mode.conflicts m

def acquire (t : ℕ) (k : κ) (m : LockMode) (db : Db κ ρ) : Option (Db κ ρ) :=
  if t ∈ db.opened ∧ db.grantable t k m = true then
    some { db with locks := ⟨t, k, m⟩ :: db.locks }
  else none

def write (t : ℕ) (k : κ) (v : Option ρ) (db : Db κ ρ) : Db κ ρ :=
  { db with
    writes := ⟨t, k, v⟩ :: db.writes.filter fun w => !(w.tx == t && w.key == k) }

/-- `INSERT … ON CONFLICT DO NOTHING` of one row. An existing row is left alone without a lock,
but one that another transaction is deleting has to be waited for. -/
def insertNew (t : ℕ) (r : ρ) (db : Db κ ρ) : Option (Bool × Db κ ρ) :=
  if (db.view key t).any (fun r' => key r' == key r) then
    if db.writes.any (fun w => w.tx != t && w.key == key r && w.row.isNone) then none
    else some (false, db)
  else (db.acquire t (key r) .update).map fun db' => (true, db'.write t (key r) (some r))

/-- `INSERT … ON CONFLICT DO UPDATE` of one row. -/
def upsert (t : ℕ) (r : ρ) (db : Db κ ρ) : Option (Db κ ρ) :=
  (db.acquire t (key r) .update).map fun db' => db'.write t (key r) (some r)

/-- Delete one row, if it is there. -/
def delete (t : ℕ) (k : κ) (db : Db κ ρ) : Option (Db κ ρ) :=
  if (db.view key t).any (fun r => key r == k) then
    (db.acquire t k .update).map fun db' => db'.write t k none
  else some db

/-- End a transaction, dropping its locks and pending writes. -/
def close (t : ℕ) (db : Db κ ρ) : Db κ ρ :=
  { db with
    writes := db.writes.filter fun w => w.tx != t
    locks := db.locks.filter fun l => l.tx != t
    opened := db.opened.filter (· != t) }

def commit (t : ℕ) (db : Db κ ρ) : Db κ ρ :=
  { db.close t with rows := db.view key t }

/-- A pending write holds its row: exclusively when it inserts or deletes, and against every
other writer and reader lock when it updates a row that is there. -/
structure Sound (db : Db κ ρ) : Prop where
  unique : ∀ r ∈ db.rows, ∀ r' ∈ db.rows, key r = key r' → r = r'
  granted : ∀ l ∈ db.locks, ∀ l' ∈ db.locks, l.key = l'.key → l.tx ≠ l'.tx →
    l.mode.conflicts l'.mode = false
  locked : ∀ w ∈ db.writes, ∃ l ∈ db.locks, l.tx = w.tx ∧ l.key = w.key ∧
    (l.mode = .update ∨ l.mode = .noKeyUpdate ∧ w.row.isSome = true)
  keyed : ∀ w ∈ db.writes, ∀ r, w.row = some r → key r = w.key
  single : ∀ w ∈ db.writes, ∀ w' ∈ db.writes, w.tx = w'.tx → w.key = w'.key → w.row = w'.row
  active : ∀ l ∈ db.locks, l.tx ∈ db.opened
  bounded : ∀ t ∈ db.opened, t < db.nextTx

variable {key} {db db' : Db κ ρ} {t u : ℕ} {k : κ} {m : LockMode} {r : ρ} {v : Option ρ}

theorem mem_view : r ∈ db.view key t ↔
    r ∈ db.rows ∧ (∀ w ∈ db.writes, w.tx = t → w.key ≠ key r) ∨
      ∃ w ∈ db.writes, w.tx = t ∧ w.row = some r := by
  simp only [view, List.mem_append, List.mem_filter, List.mem_filterMap, Bool.not_eq_true',
    List.any_eq_false, Bool.and_eq_true, beq_iff_eq, not_and]
  constructor
  · rintro (⟨hr, hw⟩ | ⟨w, hw, hrow⟩)
    · exact .inl ⟨hr, hw⟩
    · by_cases ht : w.tx = t
      · exact .inr ⟨w, hw, ht, by simpa [ht] using hrow⟩
      · simp [ht] at hrow
  · rintro (⟨hr, hw⟩ | ⟨w, hw, ht, hrow⟩)
    · exact .inl ⟨hr, hw⟩
    · exact .inr ⟨w, hw, by simp [ht, hrow]⟩

theorem any_view_key : (db.view key t).any (fun r' => key r' == k) = true ↔
    ∃ r ∈ db.view key t, key r = k := by
  simp

theorem grantable_iff : db.grantable t k m = true ↔
    ∀ l ∈ db.locks, l.key = k → l.tx ≠ t → l.mode.conflicts m = false := by
  simp only [grantable, List.all_eq_true, Bool.or_eq_true, beq_iff_eq, bne_iff_ne, ne_eq,
    Bool.not_eq_true']
  constructor
  · intro h l hl hk ht
    rcases h l hl with (h | h) | h
    · exact absurd h ht
    · exact absurd hk h
    · exact h
  · intro h l hl
    by_cases ht : l.tx = t
    · exact .inl (.inl ht)
    · by_cases hk : l.key = k
      · exact .inr (h l hl hk ht)
      · exact .inl (.inr hk)

theorem acquire_eq_some : db.acquire t k m = some db' ↔
    t ∈ db.opened ∧ (∀ l ∈ db.locks, l.key = k → l.tx ≠ t → l.mode.conflicts m = false) ∧
      db' = { db with locks := ⟨t, k, m⟩ :: db.locks } := by
  rw [acquire, ← grantable_iff]
  split_ifs with h
  · simp [h, eq_comm]
  · constructor
    · intro h'
      cases h'
    · rintro ⟨ho, hg, -⟩
      exact absurd ⟨ho, hg⟩ h

theorem mem_write_writes {w : Write κ ρ} : w ∈ (db.write t k v).writes ↔
    w = ⟨t, k, v⟩ ∨ w ∈ db.writes ∧ ¬(w.tx = t ∧ w.key = k) := by
  simp [write, imp_iff_not_or]

@[simp] theorem write_rows : (db.write t k v).rows = db.rows := rfl
@[simp] theorem write_locks : (db.write t k v).locks = db.locks := rfl
@[simp] theorem write_opened : (db.write t k v).opened = db.opened := rfl
@[simp] theorem write_nextTx : (db.write t k v).nextTx = db.nextTx := rfl
@[simp] theorem close_rows : (db.close t).rows = db.rows := rfl
@[simp] theorem close_nextTx : (db.close t).nextTx = db.nextTx := rfl
@[simp] theorem commit_rows : (db.commit key t).rows = db.view key t := rfl
@[simp] theorem commit_writes : (db.commit key t).writes = (db.close t).writes := rfl
@[simp] theorem commit_locks : (db.commit key t).locks = (db.close t).locks := rfl
@[simp] theorem commit_opened : (db.commit key t).opened = (db.close t).opened := rfl
@[simp] theorem commit_nextTx : (db.commit key t).nextTx = db.nextTx := rfl

@[simp] theorem mem_close_writes {w : Write κ ρ} :
    w ∈ (db.close t).writes ↔ w ∈ db.writes ∧ w.tx ≠ t := by
  simp [close]

@[simp] theorem mem_close_locks {l : Lock κ} :
    l ∈ (db.close t).locks ↔ l ∈ db.locks ∧ l.tx ≠ t := by
  simp [close]

@[simp] theorem mem_close_opened : u ∈ (db.close t).opened ↔ u ∈ db.opened ∧ u ≠ t := by
  simp [close]

theorem sound_empty : (empty : Db κ ρ).Sound key := by
  constructor <;> simp [empty]

namespace Sound

theorem start (h : db.Sound key) : db.start.2.Sound key where
  unique := h.unique
  granted := h.granted
  locked := h.locked
  keyed := h.keyed
  single := h.single
  active l hl := List.mem_cons_of_mem _ (h.active l hl)
  bounded := by
    intro t ht
    have hle : t ≤ db.nextTx := by
      rcases List.mem_cons.mp ht with rfl | ht
      · exact le_rfl
      · exact (h.bounded t ht).le
    exact Nat.lt_succ_of_le hle

theorem acquire (h : db.Sound key) (ha : db.acquire t k m = some db') : db'.Sound key := by
  obtain ⟨ho, hg, rfl⟩ := acquire_eq_some.mp ha
  refine ⟨h.unique, ?_, ?_, h.keyed, h.single, ?_, h.bounded⟩
  · intro l hl l' hl' hk ht
    rcases List.mem_cons.mp hl with rfl | hl <;> rcases List.mem_cons.mp hl' with rfl | hl'
    · exact absurd rfl ht
    · rw [LockMode.conflicts_comm]
      exact hg l' hl' hk.symm ht.symm
    · exact hg l hl hk ht
    · exact h.granted l hl l' hl' hk ht
  · intro w hw
    obtain ⟨l, hl, hrest⟩ := h.locked w hw
    exact ⟨l, List.mem_cons_of_mem _ hl, hrest⟩
  · intro l hl
    rcases List.mem_cons.mp hl with rfl | hl
    · exact ho
    · exact h.active l hl

theorem write (h : db.Sound key)
    (hl : ∃ l ∈ db.locks, l.tx = t ∧ l.key = k ∧
      (l.mode = .update ∨ l.mode = .noKeyUpdate ∧ v.isSome = true))
    (hk : ∀ r, v = some r → key r = k) : (db.write t k v).Sound key := by
  refine ⟨h.unique, h.granted, ?_, ?_, ?_, h.active, h.bounded⟩
  · intro w hw
    rcases mem_write_writes.mp hw with rfl | ⟨hw, -⟩
    · exact hl
    · exact h.locked w hw
  · intro w hw
    rcases mem_write_writes.mp hw with rfl | ⟨hw, -⟩
    · exact hk
    · exact h.keyed w hw
  · intro w hw w' hw' ht hkey
    rcases mem_write_writes.mp hw with rfl | ⟨hw, hne⟩ <;>
      rcases mem_write_writes.mp hw' with rfl | ⟨hw', hne'⟩
    · rfl
    · exact absurd ⟨ht.symm, hkey.symm⟩ hne'
    · exact absurd ⟨ht, hkey⟩ hne
    · exact h.single w hw w' hw' ht hkey

theorem close (h : db.Sound key) : (db.close t).Sound key := by
  refine ⟨h.unique, ?_, ?_, ?_, ?_, ?_, ?_⟩
  · intro l hl l' hl'
    exact h.granted l (mem_close_locks.mp hl).1 l' (mem_close_locks.mp hl').1
  · intro w hw
    obtain ⟨hw, ht⟩ := mem_close_writes.mp hw
    obtain ⟨l, hl, htx, hrest⟩ := h.locked w hw
    exact ⟨l, mem_close_locks.mpr ⟨hl, by rwa [htx]⟩, htx, hrest⟩
  · intro w hw
    exact h.keyed w (mem_close_writes.mp hw).1
  · intro w hw w' hw'
    exact h.single w (mem_close_writes.mp hw).1 w' (mem_close_writes.mp hw').1
  · intro l hl
    obtain ⟨hl, ht⟩ := mem_close_locks.mp hl
    exact mem_close_opened.mpr ⟨h.active l hl, ht⟩
  · intro u hu
    exact h.bounded u (mem_close_opened.mp hu).1

/-- A transaction sees one row for each key. -/
theorem view_unique (h : db.Sound key) {r' : ρ} (hr : r ∈ db.view key t)
    (hr' : r' ∈ db.view key t) (hk : key r = key r') : r = r' := by
  rcases mem_view.mp hr with ⟨hr, hw⟩ | ⟨w, hw, ht, hrow⟩ <;>
    rcases mem_view.mp hr' with ⟨hr', hw'⟩ | ⟨w', hw', ht', hrow'⟩
  · exact h.unique r hr r' hr' hk
  · exact absurd (by rw [hk, h.keyed w' hw' r' hrow']) (hw w' hw' ht')
  · exact absurd (by rw [← hk, h.keyed w hw r hrow]) (hw' w hw ht)
  · have hkey : w.key = w'.key := by rw [← h.keyed w hw r hrow, hk, h.keyed w' hw' r' hrow']
    have heq := h.single w hw w' hw' (ht.trans ht'.symm) hkey
    rw [hrow, hrow'] at heq
    exact Option.some.inj heq

theorem commit (h : db.Sound key) : (db.commit key t).Sound key where
  unique _ hr _ hr' := h.view_unique hr hr'
  granted := h.close.granted
  locked := h.close.locked
  keyed := h.close.keyed
  single := h.close.single
  active := h.close.active
  bounded := h.close.bounded

end Sound

/-- One transaction's statement: it may lock rows `L` and give rows a pending version `W`. -/
structure Grown (key : ρ → κ) (t : ℕ) (L : κ → LockMode → Prop) (W : κ → Option ρ → Prop)
    (db db' : Db κ ρ) : Prop where
  rows : db'.rows = db.rows
  opened : db'.opened = db.opened
  nextTx : db'.nextTx = db.nextTx
  locksOld : ∀ l ∈ db.locks, l ∈ db'.locks
  locksNew : ∀ l ∈ db'.locks, l ∈ db.locks ∨ l.tx = t ∧ L l.key l.mode
  writesOld : ∀ w ∈ db.writes, w ∈ db'.writes ∨ w.tx = t ∧ ∃ v, W w.key v
  rewritten : ∀ w ∈ db.writes, ∃ w' ∈ db'.writes, w'.tx = w.tx ∧ w'.key = w.key
  writesNew : ∀ w ∈ db'.writes, w ∈ db.writes ∨ w.tx = t ∧ W w.key w.row
  sound : db.Sound key → db'.Sound key

section grown

variable {L : κ → LockMode → Prop} {W : κ → Option ρ → Prop} {db₁ : Db κ ρ} {b : Bool}

theorem Grown.refl : Grown key t L W db db :=
  ⟨rfl, rfl, rfl, fun _ h => h, fun _ h => .inl h, fun _ h => .inl h,
    fun w h => ⟨w, h, rfl, rfl⟩, fun _ h => .inl h, id⟩

theorem Grown.trans (h₁ : Grown key t L W db db₁) (h₂ : Grown key t L W db₁ db') :
    Grown key t L W db db' where
  rows := h₂.rows.trans h₁.rows
  opened := h₂.opened.trans h₁.opened
  nextTx := h₂.nextTx.trans h₁.nextTx
  locksOld l hl := h₂.locksOld l (h₁.locksOld l hl)
  locksNew l hl := (h₂.locksNew l hl).elim (h₁.locksNew l) .inr
  writesOld w hw := (h₁.writesOld w hw).elim (h₂.writesOld w) .inr
  rewritten w hw := by
    obtain ⟨w₁, hw₁, ht₁, hk₁⟩ := h₁.rewritten w hw
    obtain ⟨w₂, hw₂, ht₂, hk₂⟩ := h₂.rewritten w₁ hw₁
    exact ⟨w₂, hw₂, ht₂.trans ht₁, hk₂.trans hk₁⟩
  writesNew w hw := (h₂.writesNew w hw).elim (h₁.writesNew w) .inr
  sound hs := h₂.sound (h₁.sound hs)

theorem Grown.acquire (ha : db.acquire t k m = some db') (hL : L k m) :
    Grown key t L W db db' := by
  have hsound : db.Sound key → db'.Sound key := fun hs => hs.acquire ha
  obtain ⟨-, -, rfl⟩ := acquire_eq_some.mp ha
  refine ⟨rfl, rfl, rfl, fun l hl => List.mem_cons_of_mem _ hl, ?_, fun w hw => .inl hw,
    fun w hw => ⟨w, hw, rfl, rfl⟩, fun w hw => .inl hw, hsound⟩
  intro l hl
  rcases List.mem_cons.mp hl with rfl | hl
  · exact .inr ⟨rfl, hL⟩
  · exact .inl hl

theorem Grown.write (hW : W k v)
    (hl : ∃ l ∈ db.locks, l.tx = t ∧ l.key = k ∧
      (l.mode = .update ∨ l.mode = .noKeyUpdate ∧ v.isSome = true))
    (hk : ∀ r, v = some r → key r = k) : Grown key t L W db (db.write t k v) := by
  refine ⟨rfl, rfl, rfl, fun l hl => hl, fun l hl => .inl hl, ?_, ?_, ?_,
    fun hs => hs.write hl hk⟩
  · intro w hw
    by_cases hsame : w.tx = t ∧ w.key = k
    · exact .inr ⟨hsame.1, v, by rwa [hsame.2]⟩
    · exact .inl (mem_write_writes.mpr (.inr ⟨hw, hsame⟩))
  · intro w hw
    by_cases hsame : w.tx = t ∧ w.key = k
    · exact ⟨_, mem_write_writes.mpr (.inl rfl), hsame.1.symm, hsame.2.symm⟩
    · exact ⟨w, mem_write_writes.mpr (.inr ⟨hw, hsame⟩), rfl, rfl⟩
  · intro w hw
    rcases mem_write_writes.mp hw with rfl | ⟨hw, -⟩
    · exact .inr ⟨rfl, hW⟩
    · exact .inl hw

/-- Lock a row exclusively and give it a new version. -/
theorem Grown.acquire_write (ha : db.acquire t k .update = some db') (hL : L k .update)
    (hW : W k v) (hk : ∀ r, v = some r → key r = k) :
    Grown key t L W db (db'.write t k v) := by
  refine (Grown.acquire ha hL).trans (.write hW ?_ hk)
  obtain ⟨-, -, rfl⟩ := acquire_eq_some.mp ha
  exact ⟨_, List.mem_cons_self, rfl, rfl, .inl rfl⟩

theorem Grown.insertNew (hi : db.insertNew key t r = some (b, db')) (hL : L (key r) .update)
    (hW : W (key r) (some r)) : Grown key t L W db db' := by
  unfold Db.insertNew at hi
  split_ifs at hi
  · obtain ⟨-, rfl⟩ := Prod.mk.inj (Option.some.inj hi)
    exact .refl
  · obtain ⟨db₁, ha, heq⟩ := Option.map_eq_some_iff.mp hi
    obtain ⟨-, rfl⟩ := Prod.mk.inj heq
    exact .acquire_write ha hL hW (by rintro _ ⟨⟩; rfl)

theorem Grown.upsert (hi : db.upsert key t r = some db') (hL : L (key r) .update)
    (hW : W (key r) (some r)) : Grown key t L W db db' := by
  obtain ⟨db₁, ha, rfl⟩ := Option.map_eq_some_iff.mp hi
  exact .acquire_write ha hL hW (by rintro _ ⟨⟩; rfl)

theorem Grown.delete (hi : db.delete key t k = some db') (hL : L k .update) (hW : W k none) :
    Grown key t L W db db' := by
  unfold Db.delete at hi
  split_ifs at hi
  · obtain ⟨db₁, ha, rfl⟩ := Option.map_eq_some_iff.mp hi
    exact .acquire_write ha hL hW (by rintro _ ⟨⟩)
  · obtain rfl := Option.some.inj hi
    exact .refl

end grown
end Db
end Scarab.RowStore
