import Scarab.EngineTypes

/-!
# The outbox

Rows are numbered in enqueue order and never removed, and no two carry one idempotency
key: a message whose key was ever used is dropped.
-/
namespace Scarab.Engine

structure Outbox where
  entries : List OutboxEntry
  numbered : entries.map (·.id) = List.range' 1 entries.length
  keyed : (entries.map (·.msg.key)).Nodup

namespace Outbox

def empty : Outbox := ⟨[], rfl, List.nodup_nil⟩

/-- Queue a message, unless its key was used before. -/
def enqueue (o : Outbox) (msg : OutboxMessage) : Outbox :=
  if hk : msg.key ∈ o.entries.map (·.msg.key) then o
  else
    ⟨o.entries ++ [⟨o.entries.length + 1, msg, none, false, 0, false⟩],
      by simp [o.numbered, List.range'_concat, Nat.add_comm],
      by
        rw [List.map_append]
        exact List.nodup_append.mpr ⟨o.keyed, by simp, fun a ha b hb => by
          rintro rfl
          rw [List.mem_singleton.mp hb] at ha
          exact hk ha⟩⟩

/-- Rewrite the delivery state of the rows `p` picks; a row keeps its id and its message. -/
def update (o : Outbox) (p : OutboxEntry → Bool) (f : OutboxEntry → OutboxEntry) : Outbox :=
  ⟨o.entries.map fun e => if p e then { f e with id := e.id, msg := e.msg } else e,
    by
      rw [List.length_map, ← o.numbered, List.map_map]
      refine List.map_congr_left fun e _ => ?_
      simp only [Function.comp_apply]
      split_ifs <;> rfl,
    by
      have hkeys : ((o.entries.map fun e => if p e then { f e with id := e.id, msg := e.msg } else e).map
          (·.msg.key)) = o.entries.map (·.msg.key) := by
        rw [List.map_map]
        refine List.map_congr_left fun e _ => ?_
        simp only [Function.comp_apply]
        split_ifs <;> rfl
      rw [hkeys]
      exact o.keyed⟩

variable {o : Outbox} {e e' : OutboxEntry} {msg : OutboxMessage} {p : OutboxEntry → Bool}
  {f : OutboxEntry → OutboxEntry}

theorem eq_of_id (he : e ∈ o.entries) (he' : e' ∈ o.entries) (h : e.id = e'.id) : e = e' := by
  have hnd : (o.entries.map (·.id)).Nodup := by
    rw [o.numbered]
    exact List.nodup_range'
  exact List.inj_on_of_nodup_map hnd he he' h

theorem eq_of_key (he : e ∈ o.entries) (he' : e' ∈ o.entries) (h : e.msg.key = e'.msg.key) :
    e = e' :=
  List.inj_on_of_nodup_map o.keyed he he' h

theorem enqueue_of_mem (h : msg.key ∈ o.entries.map (·.msg.key)) : o.enqueue msg = o := by
  simp only [enqueue, dif_pos h]

theorem entries_enqueue (h : msg.key ∉ o.entries.map (·.msg.key)) :
    (o.enqueue msg).entries =
      o.entries ++ [⟨o.entries.length + 1, msg, none, false, 0, false⟩] := by
  simp only [enqueue, dif_neg h]

theorem mem_enqueue_of_mem (he : e ∈ o.entries) (msg : OutboxMessage) :
    e ∈ (o.enqueue msg).entries := by
  by_cases h : msg.key ∈ o.entries.map (·.msg.key)
  · rwa [enqueue_of_mem h]
  · rw [entries_enqueue h]
    exact List.mem_append_left _ he

/-- A row after an enqueue was there before, or is the message just queued. -/
theorem mem_enqueue (he : e ∈ (o.enqueue msg).entries) :
    e ∈ o.entries ∨ e.msg = msg ∧ e.pending = true ∧ msg.key ∉ o.entries.map (·.msg.key) := by
  by_cases h : msg.key ∈ o.entries.map (·.msg.key)
  · rw [enqueue_of_mem h] at he
    exact .inl he
  · rw [entries_enqueue h] at he
    rcases List.mem_append.mp he with he | he
    · exact .inl he
    · obtain rfl := List.mem_singleton.mp he
      exact .inr ⟨rfl, rfl, h⟩

theorem key_mem_enqueue (o : Outbox) (msg : OutboxMessage) :
    msg.key ∈ (o.enqueue msg).entries.map (·.msg.key) := by
  by_cases h : msg.key ∈ o.entries.map (·.msg.key)
  · rwa [enqueue_of_mem h]
  · simp [entries_enqueue h]

theorem mem_foldl_enqueue_of_mem (ms : List OutboxMessage) (he : e ∈ o.entries) :
    e ∈ (ms.foldl enqueue o).entries := by
  induction ms generalizing o with
  | nil => exact he
  | cons m ms ih => exact ih (mem_enqueue_of_mem he m)

/-- A row after several enqueues was there before, or is one of the messages, under a key no
earlier row has. -/
theorem mem_foldl_enqueue {ms : List OutboxMessage} (he : e ∈ (ms.foldl enqueue o).entries) :
    e ∈ o.entries ∨
      e.msg ∈ ms ∧ e.pending = true ∧ e.msg.key ∉ o.entries.map (·.msg.key) := by
  induction ms generalizing o with
  | nil => exact .inl he
  | cons m ms ih =>
    rcases ih he with he | ⟨hm, hp, hk⟩
    · rcases mem_enqueue he with he | ⟨rfl, hp, hk⟩
      · exact .inl he
      · exact .inr ⟨List.mem_cons_self, hp, hk⟩
    · refine .inr ⟨List.mem_cons_of_mem _ hm, hp, fun hold => hk ?_⟩
      obtain ⟨x, hx, hkey⟩ := List.mem_map.mp hold
      exact List.mem_map.mpr ⟨x, mem_enqueue_of_mem hx m, hkey⟩

theorem key_mem_foldl_enqueue {ms : List OutboxMessage} (hm : msg ∈ ms) :
    msg.key ∈ (ms.foldl enqueue o).entries.map (·.msg.key) := by
  induction ms generalizing o with
  | nil => cases hm
  | cons m ms ih =>
    rcases List.mem_cons.mp hm with rfl | hm
    · obtain ⟨x, hx, hkey⟩ := List.mem_map.mp (key_mem_enqueue o msg)
      exact List.mem_map.mpr ⟨x, mem_foldl_enqueue_of_mem ms hx, hkey⟩
    · exact ih hm

/-- The rows of one kind, in enqueue order. -/
def ofKind (o : Outbox) (kind : OutboxKind) : List OutboxEntry :=
  o.entries.filter (·.msg.kind = kind)

theorem ofKind_enqueue_of_ne {kind : OutboxKind} (hk : msg.kind ≠ kind) :
    (o.enqueue msg).ofKind kind = o.ofKind kind := by
  by_cases h : msg.key ∈ o.entries.map (·.msg.key)
  · rw [enqueue_of_mem h]
  · simp [ofKind, entries_enqueue h, hk]

theorem ofKind_foldl_of_ne {kind : OutboxKind} {ms : List OutboxMessage}
    (hk : ∀ m ∈ ms, m.kind ≠ kind) : (ms.foldl enqueue o).ofKind kind = o.ofKind kind := by
  induction ms generalizing o with
  | nil => rfl
  | cons m ms ih =>
    rw [List.foldl_cons, ih fun m' hm' => hk m' (List.mem_cons_of_mem _ hm')]
    exact ofKind_enqueue_of_ne (hk m List.mem_cons_self)

/-- Of several messages, the only one of its kind, under a new key, becomes one new row. -/
theorem ofKind_foldl_enqueue {kind : OutboxKind} {ms : List OutboxMessage}
    (hone : ms.filter (·.kind = kind) = [msg]) (hk : msg.key ∉ o.entries.map (·.msg.key))
    (hne : ∀ m ∈ ms, m.kind ≠ kind → m.key ≠ msg.key) :
    ∃ row, (ms.foldl enqueue o).ofKind kind = o.ofKind kind ++ [row] ∧ row.msg = msg ∧
      row.pending = true := by
  induction ms generalizing o with
  | nil => cases hone
  | cons m ms ih =>
    have hne' : ∀ m' ∈ ms, m'.kind ≠ kind → m'.key ≠ msg.key := fun m' hm' =>
      hne m' (List.mem_cons_of_mem _ hm')
    rw [List.foldl_cons]
    by_cases hm : m.kind = kind
    · rw [List.filter_cons_of_pos (by simpa using hm)] at hone
      obtain ⟨rfl, hrest⟩ := List.cons.inj hone
      have hothers : ∀ m' ∈ ms, m'.kind ≠ kind := by
        intro m' hm' hk'
        have hin : m' ∈ ms.filter (·.kind = kind) :=
          List.mem_filter.mpr ⟨hm', by simpa using hk'⟩
        rw [hrest] at hin
        cases hin
      rw [ofKind_foldl_of_ne hothers]
      refine ⟨⟨o.entries.length + 1, m, none, false, 0, false⟩, ?_, rfl, rfl⟩
      simp [ofKind, entries_enqueue hk, hm]
    · rw [List.filter_cons_of_neg (by simpa using hm)] at hone
      have hk' : msg.key ∉ (o.enqueue m).entries.map (·.msg.key) := by
        intro hmem
        obtain ⟨x, hx, hxk⟩ := List.mem_map.mp hmem
        rcases mem_enqueue hx with hx | ⟨rfl, -, -⟩
        · exact hk (List.mem_map.mpr ⟨x, hx, hxk⟩)
        · exact hne x.msg List.mem_cons_self hm hxk
      obtain ⟨row, hrow, hmsg, hp⟩ := ih hone hk' hne'
      exact ⟨row, by rw [hrow, ofKind_enqueue_of_ne hm], hmsg, hp⟩

theorem mem_update (he : e ∈ (o.update p f).entries) :
    ∃ e₀ ∈ o.entries, e = if p e₀ then { f e₀ with id := e₀.id, msg := e₀.msg } else e₀ := by
  obtain ⟨e₀, he₀, rfl⟩ := List.mem_map.mp he
  exact ⟨e₀, he₀, rfl⟩

theorem mem_update_of_mem (he : e ∈ o.entries) (p : OutboxEntry → Bool)
    (f : OutboxEntry → OutboxEntry) :
    (if p e then { f e with id := e.id, msg := e.msg } else e) ∈ (o.update p f).entries :=
  List.mem_map_of_mem he

end Outbox
end Scarab.Engine
