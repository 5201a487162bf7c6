import Scarab.StepUpRules

/-!
# What a passkey confirmed goes with it

Removing a passkey, resetting its principal or flagging it as cloned revokes every window and
unconsumed action confirmation it signed, whatever confirmations are being stored at the time.
-/
namespace Scarab.StepUp

open Depot (Bytes)
open Interleave

/-- A confirmation, with the passkey that signed it and the principal it confirms for. -/
structure Standing where
  confirmation : Id
  passkey : Id
  principal : Text

def StepUpConfirmation.standing (c : StepUpConfirmation) : Standing :=
  ⟨c.id, c.passkeyId, c.principal⟩

/-- The principal still holds the passkey, and nothing flagged it. -/
def Usable (s : Stores) (i : Standing) : Prop :=
  ∃ p ∈ s.passkeys, p.id = i.passkey ∧ p.principal = i.principal ∧ p.cloneSuspectedAt = none

/-- A confirmation stands that was signed by a passkey which is gone or flagged. -/
def Amiss (s : Stores) (i : Standing) : Prop :=
  (∃ c ∈ s.confirmations, c.stands ∧ c.standing = i) ∧ ¬ Usable s i

/-- A command that may leave a confirmation amiss: it stores that confirmation, or removes or flags its
passkey. -/
def Makes (i : Standing) : Exchange Cmd Cmd.Resp → Prop
  | ⟨.store (.putConfirmation c), _⟩ => c.stands ∧ c.standing = i
  | ⟨.store (.recordUse id _ _ _ _), r⟩ => id = i.passkey ∧ r ≠ .ok .recorded ∧ r ≠ .ok .notFound
  | ⟨.store (.markClone id _), _⟩ => id = i.passkey
  | ⟨.store (.removePasskey _ id), r⟩ => id = i.passkey ∧ r ≠ .ok false
  | ⟨.store (.removeAll principal), _⟩ => principal = i.principal
  | _ => False

/-- An answer after which nothing is amiss: a revocation, or the passkey read and usable. -/
def Settles (i : Standing) : Exchange Cmd Cmd.Resp → Prop
  | ⟨.store (.deleteForPasskey id), .ok _⟩ => id = i.passkey
  | ⟨.store (.deleteWindowsFor principal), .ok _⟩ => principal = i.principal
  | ⟨.store (.getByCredential _), .ok (some p)⟩ =>
      p.id = i.passkey ∧ p.principal = i.principal ∧ p.cloneSuspectedAt = none
  | _ => False

/-- What a call has done that may be amiss and that it has not put right. -/
abbrev OwesRevoke (h : List (Exchange Cmd Cmd.Resp)) (i : Standing) : Prop :=
  Owes (fun x i => Makes i x) (fun x i => Settles i x) h i

section stores

variable {s s' : Stores} {i : Standing}

theorem Amiss.of (h : Amiss s' i)
    (hc : ∀ c ∈ s'.confirmations, c.stands → c.standing = i →
      ∃ c' ∈ s.confirmations, c'.stands ∧ c'.standing = i)
    (hp : Usable s i → Usable s' i) : Amiss s i := by
  obtain ⟨⟨c, hmem, hstands, hsigned⟩, hnot⟩ := h
  exact ⟨hc c hmem hstands hsigned, fun hu => hnot (hp hu)⟩

theorem Amiss.of_same (h : Amiss s' i) (hc : s'.confirmations ⊆ s.confirmations)
    (hp : s.passkeys ⊆ s'.passkeys) : Amiss s i := by
  refine h.of (fun c hmem hstands hsigned => ⟨c, hc hmem, hstands, hsigned⟩) ?_
  rintro ⟨p, hmem, hrest⟩
  exact ⟨p, hp hmem, hrest⟩

/-- The commands that touch neither the passkeys nor the confirmations. -/
def frameKinds : List Kind :=
  [.readPasskeys, .userHandle, .putChallenge, .consumeChallenge, .reapChallenges, .liveWindow,
    .raiseRequest, .getRequest, .beginExecution, .finishRequest, .append]

theorem exec_frame {x : Store} (hx : x.kind ∈ frameKinds) :
    (s.exec x).2.passkeys = s.passkeys ∧ (s.exec x).2.confirmations = s.confirmations := by
  cases x with
  | listPasskeys | getByCredential | liveWindow | getRequest => exact ⟨rfl, rfl⟩
  | userHandle principal fresh =>
    simp only [Stores.exec, Stores.done, Stores.userHandle]
    cases s.handles.lookup principal <;> exact ⟨rfl, rfl⟩
  | putChallenge c =>
    simp only [Stores.exec, Stores.orKeep, Stores.putChallenge]
    split_ifs <;> exact ⟨rfl, rfl⟩
  | consumeChallenge id session now =>
    simp only [Stores.exec, Stores.done, Stores.consumeChallenge]
    cases s.challenges.find? (·.id = id) with
    | none => exact ⟨rfl, rfl⟩
    | some c =>
      dsimp only
      split_ifs <;> exact ⟨rfl, rfl⟩
  | raiseRequest r caps now =>
    simp only [Stores.exec, Stores.raiseRequest]
    split_ifs <;> exact ⟨rfl, rfl⟩
  | beginExecution id by_ confirmation now =>
    simp only [Stores.exec, Stores.done, Stores.beginExecution]
    cases s.requests.find? (·.id = id) with
    | none => exact ⟨rfl, rfl⟩
    | some r =>
      dsimp only
      split_ifs <;> exact ⟨rfl, rfl⟩
  | finishRequest id state status now =>
    simp only [Stores.exec, Stores.finishRequest]
    split_ifs
    · exact ⟨rfl, rfl⟩
    · cases s.requests.find? (·.id = id) with
      | none => exact ⟨rfl, rfl⟩
      | some r =>
        dsimp only
        split_ifs <;> exact ⟨rfl, rfl⟩
  | reapChallenges | append => exact ⟨rfl, rfl⟩
  | insertPasskey | recordUse | markClone | removePasskey | removeAll | putConfirmation
  | consumeAction | deleteWindowsFor | deleteForPasskey | reap => simp [Store.kind, frameKinds] at hx

theorem mem_modifyAt {α : Type} {key : α → Id} {id : Id} {f : α → α} {l : List α} {y : α} :
    y ∈ modifyAt key id f l ↔ ∃ x ∈ l, y = if key x = id then f x else x := by
  simp only [modifyAt, List.mem_map, eq_comm]

theorem map_modifyAt {α : Type} {key : α → Id} {id : Id} {f : α → α} (hf : ∀ x, key (f x) = key x)
    (l : List α) : (modifyAt key id f l).map key = l.map key := by
  rw [modifyAt, List.map_map]
  refine List.map_congr_left fun x _ => ?_
  simp only [Function.comp_apply]
  split_ifs
  · exact hf x
  · rfl

/-- The passkeys are a map by id. -/
def KeyedPasskeys (s : Stores) : Prop := (s.passkeys.map (·.id)).Nodup

@[simp] theorem Passkey.use_id (p : Passkey) (read new : ℕ) (backup : Bool) (now : ℤ) :
    (p.use read new backup now).2.id = p.id := by
  simp only [Passkey.use]
  split_ifs <;> rfl

@[simp] theorem Passkey.use_principal (p : Passkey) (read new : ℕ) (backup : Bool) (now : ℤ) :
    (p.use read new backup now).2.principal = p.principal := by
  simp only [Passkey.use]
  split_ifs <;> rfl

/-- A use that is recorded leaves the passkey unflagged. -/
theorem Passkey.use_unflagged {p : Passkey} {read new : ℕ} {backup : Bool} {now : ℤ}
    (h : (p.use read new backup now).1 ≠ .cloneSuspected) :
    (p.use read new backup now).2.cloneSuspectedAt = none := by
  simp only [Passkey.use] at h ⊢
  split_ifs at h ⊢ with hcond
  · exact Option.isNone_iff_eq_none.mp hcond.1
  · exact absurd rfl h

theorem exec_keyed (hs : KeyedPasskeys s) (x : Store) : KeyedPasskeys (s.exec x).2 := by
  by_cases hx : x.kind ∈ frameKinds
  · rw [KeyedPasskeys, (exec_frame hx).1]
    exact hs
  cases x with
  | insertPasskey p =>
    simp only [Stores.exec, Stores.orKeep, Stores.insertPasskey]
    split_ifs with hany
    · exact hs
    · simp only [KeyedPasskeys, List.map_append, List.map_cons, List.map_nil]
      refine List.nodup_append.mpr ⟨hs, List.nodup_singleton _, ?_⟩
      intro a ha b hb
      obtain ⟨q, hq, rfl⟩ := List.mem_map.mp ha
      obtain rfl := List.mem_singleton.mp hb
      intro heq
      exact hany (List.any_eq_true.mpr ⟨q, hq, by simp [heq]⟩)
  | recordUse id read new backup now =>
    simp only [Stores.exec, Stores.done, Stores.recordUse]
    split
    · exact hs
    · rw [KeyedPasskeys, map_modifyAt fun p => Passkey.use_id p _ _ _ _]
      exact hs
  | markClone id now =>
    show ((modifyAt (·.id) id (·.flag now) s.passkeys).map (·.id)).Nodup
    rw [map_modifyAt fun (p : Passkey) => show (p.flag now).id = p.id from rfl]
    exact hs
  | removePasskey principal id => exact hs.sublist (List.filter_sublist.map _)
  | removeAll principal => exact hs.sublist (List.filter_sublist.map _)
  | consumeAction session principal digest now =>
    simp only [Stores.exec, Stores.done, Stores.consumeAction]
    split <;> exact hs
  | putConfirmation c =>
    simp only [Stores.exec, Stores.orKeep, Stores.putConfirmation]
    split_ifs <;> exact hs
  | deleteWindowsFor | deleteForPasskey | reap => exact hs
  | _ => exact absurd (by simp [Store.kind, frameKinds]) hx

/-- Of one id the passkeys hold one row. -/
theorem KeyedPasskeys.unique (hs : KeyedPasskeys s) {p q : Passkey} (hp : p ∈ s.passkeys)
    (hq : q ∈ s.passkeys) (hid : p.id = q.id) : p = q :=
  List.inj_on_of_nodup_map hs hp hq hid

/-- A change of one passkey leaves the others usable. -/
theorem usable_modifyAt {id : Id} {f : Passkey → Passkey} (hi : id ≠ i.passkey) (hu : Usable s i) :
    Usable { s with passkeys := modifyAt (·.id) id f s.passkeys } i := by
  obtain ⟨p, hmem, hid, hrest⟩ := hu
  refine ⟨p, mem_modifyAt.mpr ⟨p, hmem, ?_⟩, hid, hrest⟩
  rw [if_neg]
  exact fun heq => hi (heq.symm.trans hid)

theorem usable_recordUse (hs : KeyedPasskeys s) {id : Id} {read new : ℕ} {backup : Bool} {now : ℤ}
    (hi : id ≠ i.passkey ∨ (s.recordUse id read new backup now).1 ≠ .cloneSuspected) (hu : Usable s i) :
    Usable (s.recordUse id read new backup now).2 i := by
  simp only [Stores.recordUse] at hi ⊢
  cases hfind : s.passkeys.find? (·.id = id) with
  | none => exact hu
  | some q =>
    rw [hfind] at hi
    by_cases hid : id = i.passkey
    · obtain ⟨p, hmem, hp, hprincipal, -⟩ := hu
      have hq : q = p := by
        refine hs.unique (List.mem_of_find?_eq_some hfind) hmem ?_
        have hqid := List.find?_some hfind
        simp only [decide_eq_true_eq] at hqid
        rw [hqid, hid, hp]
      have hrecorded := hi.resolve_left (absurd hid)
      refine ⟨(q.use read new backup now).2, mem_modifyAt.mpr ⟨q, hq ▸ hmem, ?_⟩, ?_, ?_,
        Passkey.use_unflagged hrecorded⟩
      · rw [if_pos]
        rw [hq, hp, hid]
      · rw [Passkey.use_id, hq, hp]
      · rw [Passkey.use_principal, hq, hprincipal]
    · exact usable_modifyAt hid hu

/-- What a command puts amiss it makes, and where it settles it leaves nothing amiss. -/
def Accounted (s : Stores) (x : Store) (i : Standing) : Prop :=
  Amiss (s.exec x).2 i → ¬ Settles i ⟨.store x, (s.exec x).1⟩ ∧
    (Makes i ⟨.store x, (s.exec x).1⟩ ∨ Amiss s i)

theorem getByCredential_amiss {credentialId : Bytes} :
    Accounted s (.getByCredential credentialId) i := by
  intro h
  refine ⟨fun hsettles => ?_, .inr h⟩
  simp only [Stores.exec, Stores.reading] at hsettles h
  cases hfound : s.getByCredential credentialId with
  | none => simp [hfound, Settles] at hsettles
  | some p =>
    rw [hfound] at hsettles
    exact h.2 ⟨p, List.mem_of_find?_eq_some hfound, hsettles⟩

theorem insertPasskey_amiss {p : Passkey} : Accounted s (.insertPasskey p) i := by
  intro h
  refine ⟨id, .inr ?_⟩
  simp only [Stores.exec, Stores.orKeep, Stores.insertPasskey] at h
  split_ifs at h
  · exact h
  · exact h.of_same (List.Subset.refl _) (by simp)

theorem recordUse_amiss (hs : KeyedPasskeys s) {id : Id} {read new : ℕ} {backup : Bool} {now : ℤ} :
    Accounted s (.recordUse id read new backup now) i := by
  intro h
  refine ⟨fun hsettles => hsettles, ?_⟩
  have hconf : (s.recordUse id read new backup now).2.confirmations = s.confirmations := by
    simp only [Stores.recordUse]
    split <;> rfl
  by_cases hmakes : Makes i ⟨.store (.recordUse id read new backup now),
      (s.exec (.recordUse id read new backup now)).1⟩
  · exact .inl hmakes
  · refine .inr (h.of (fun c hc hstands hsigned => ⟨c, hconf ▸ hc, hstands, hsigned⟩) ?_)
    refine usable_recordUse hs ?_
    by_contra hneither
    push Not at hneither
    refine hmakes ⟨hneither.1, ?_, ?_⟩
    · simp [Stores.exec, Stores.done, hneither.2]
    · simp [Stores.exec, Stores.done, hneither.2]

theorem markClone_amiss {id : Id} {now : ℤ} : Accounted s (.markClone id now) i := by
  intro h
  refine ⟨fun hsettles => hsettles, ?_⟩
  by_cases hid : id = i.passkey
  · exact .inl hid
  · exact .inr (h.of (fun c hc hstands hsigned => ⟨c, hc, hstands, hsigned⟩) (usable_modifyAt hid))

theorem removePasskey_amiss {principal : Text} {id : Id} :
    Accounted s (.removePasskey principal id) i := by
  intro h
  refine ⟨fun hsettles => hsettles, ?_⟩
  by_cases hmakes : Makes i ⟨.store (.removePasskey principal id),
      (s.exec (.removePasskey principal id)).1⟩
  · exact .inl hmakes
  · refine .inr (h.of (fun c hc hstands hsigned => ⟨c, hc, hstands, hsigned⟩) ?_)
    rintro ⟨p, hmem, hp, hrest⟩
    refine ⟨p, List.mem_filter.mpr ⟨hmem, ?_⟩, hp, hrest⟩
    simp only [decide_not, Bool.not_eq_true', decide_eq_false_iff_not]
    rintro ⟨hid, hprincipal⟩
    refine hmakes ⟨hid.symm.trans hp, ?_⟩
    have hany : (s.passkeys.any fun p => p.id = id ∧ p.principal = principal) = true :=
      List.any_eq_true.mpr ⟨p, hmem, by simp [hid, hprincipal]⟩
    have hanswer : (s.exec (.removePasskey principal id)).1 = .ok true :=
      congrArg Except.ok hany
    simp [hanswer]

theorem removeAll_amiss {principal : Text} : Accounted s (.removeAll principal) i := by
  intro h
  refine ⟨fun hsettles => hsettles, ?_⟩
  by_cases hprincipal : principal = i.principal
  · exact .inl hprincipal
  · refine .inr (h.of (fun c hc hstands hsigned => ⟨c, hc, hstands, hsigned⟩) ?_)
    rintro ⟨p, hmem, hp, hrest⟩
    refine ⟨p, List.mem_filter.mpr ⟨hmem, ?_⟩, hp, hrest⟩
    simp only [decide_not, Bool.not_eq_true', decide_eq_false_iff_not]
    exact fun heq => hprincipal (heq.symm.trans hrest.1)

theorem putConfirmation_amiss {c : StepUpConfirmation} : Accounted s (.putConfirmation c) i := by
  intro h
  refine ⟨fun hsettles => hsettles, ?_⟩
  simp only [Stores.exec, Stores.orKeep, Stores.putConfirmation] at h
  split_ifs at h
  · exact .inr h
  · obtain ⟨⟨c', hmem, hstands, hsigned⟩, hnot⟩ := h
    rcases List.mem_append.mp hmem with hmem | hmem
    · exact .inr ⟨⟨c', hmem, hstands, hsigned⟩, hnot⟩
    · obtain rfl := List.mem_singleton.mp hmem
      exact .inl ⟨hstands, hsigned⟩

/-- A confirmation that stands unconsumed once another is consumed stood before. -/
theorem consumeAction_amiss {session principal : Text} {digest : Digest} {now : ℤ} :
    Accounted s (.consumeAction session principal digest now) i := by
  intro h
  refine ⟨fun hsettles => hsettles, .inr ?_⟩
  simp only [Stores.exec, Stores.done, Stores.consumeAction] at h
  split at h
  · exact h
  · refine h.of (fun c hmem hstands hsigned => ?_) fun hu => hu
    obtain ⟨c', hmem', rfl⟩ := mem_modifyAt.mp hmem
    split_ifs at hstands hsigned
    · refine ⟨c', hmem', ?_, hsigned⟩
      simp only [StepUpConfirmation.stands, Option.isNone_some, Bool.false_eq_true, and_false,
        or_false, decide_eq_true_eq] at hstands ⊢
      exact .inl hstands
    · exact ⟨c', hmem', hstands, hsigned⟩

theorem deleteWindowsFor_amiss {principal : Text} : Accounted s (.deleteWindowsFor principal) i := by
  intro h
  have hsub : (s.exec (.deleteWindowsFor principal)).2.confirmations ⊆ s.confirmations :=
    List.filter_subset_self _
  refine ⟨fun hsettles => ?_, .inr (h.of_same hsub (List.Subset.refl _))⟩
  obtain ⟨⟨c, hmem, hstands, hsigned⟩, -⟩ := h
  have hkept := (List.mem_filter.mp hmem).2
  have hprincipal : c.principal = principal :=
    (congrArg Standing.principal hsigned).trans hsettles.symm
  simp [hprincipal, hstands] at hkept

theorem deleteForPasskey_amiss {passkeyId : Id} : Accounted s (.deleteForPasskey passkeyId) i := by
  intro h
  have hsub : (s.exec (.deleteForPasskey passkeyId)).2.confirmations ⊆ s.confirmations :=
    List.filter_subset_self _
  refine ⟨fun hsettles => ?_, .inr (h.of_same hsub (List.Subset.refl _))⟩
  obtain ⟨⟨c, hmem, hstands, hsigned⟩, -⟩ := h
  have hkept := (List.mem_filter.mp hmem).2
  have hid : c.passkeyId = passkeyId := (congrArg Standing.passkey hsigned).trans hsettles.symm
  simp [hid, hstands] at hkept

/-- One command of the stores, by what it does to the passkeys and the confirmations. -/
theorem exec_amiss (hs : KeyedPasskeys s) (x : Store) : Accounted s x i := by
  cases x with
  | getByCredential => exact getByCredential_amiss
  | insertPasskey => exact insertPasskey_amiss
  | recordUse => exact recordUse_amiss hs
  | markClone => exact markClone_amiss
  | removePasskey => exact removePasskey_amiss
  | removeAll => exact removeAll_amiss
  | putConfirmation => exact putConfirmation_amiss
  | consumeAction => exact consumeAction_amiss
  | deleteWindowsFor => exact deleteWindowsFor_amiss
  | deleteForPasskey => exact deleteForPasskey_amiss
  | reap now olderThan =>
    exact fun h => ⟨fun hsettles => hsettles,
      .inr (h.of_same (List.filter_subset_self _) (List.Subset.refl _))⟩
  | listPasskeys | userHandle | putChallenge | consumeChallenge | reapChallenges | liveWindow
  | raiseRequest | getRequest | beginExecution | finishRequest | append =>
    refine fun h => ⟨fun hsettles => hsettles, .inr (h.of_same ?_ ?_)⟩
    · rw [(exec_frame (by simp [Store.kind, frameKinds])).2]
      exact List.Subset.refl _
    · rw [(exec_frame (by simp [Store.kind, frameKinds])).1]
      exact List.Subset.refl _

/-- Whatever the fault, what a command puts amiss its call owes. -/
theorem respond_amiss {c : Cmd} {a : Answer} {r : c.Resp} (hresp : respond c a s = (r, s'))
    (hs : KeyedPasskeys s) (h : Amiss s' i) :
    ¬ Settles i ⟨c, r⟩ ∧ (Makes i ⟨c, r⟩ ∨ Amiss s i) := by
  cases c with
  | drawId =>
    obtain ⟨rfl, rfl⟩ := Prod.mk.inj hresp
    exact ⟨fun hsettles => hsettles, .inr h⟩
  | ask q =>
    obtain ⟨rfl, rfl⟩ := Prod.mk.inj hresp
    exact ⟨fun hsettles => hsettles, .inr h⟩
  | store x =>
    have herror : ∀ e, ¬ Settles i ⟨.store x, .error e⟩ := by
      intro e hsettles
      cases x <;> exact hsettles
    simp only [respond, respondStore] at hresp
    split at hresp
    · obtain ⟨rfl, rfl⟩ := Prod.mk.inj hresp
      exact exec_amiss hs x h
    · obtain ⟨rfl, rfl⟩ := Prod.mk.inj hresp
      exact ⟨herror _, .inr h⟩
    · obtain ⟨rfl, rfl⟩ := Prod.mk.inj hresp
      refine ⟨herror _, (exec_amiss hs x h).2.imp_left fun hmakes => ?_⟩
      cases x with
      | putConfirmation c => exact hmakes
      | recordUse id read new backup now => exact ⟨hmakes.1, by simp, by simp⟩
      | markClone id now => exact hmakes
      | removePasskey principal id => exact ⟨hmakes.1, by simp⟩
      | removeAll principal => exact hmakes
      | _ => exact hmakes

theorem respond_keyed {c : Cmd} {a : Answer} {r : c.Resp} (hresp : respond c a s = (r, s'))
    (hs : KeyedPasskeys s) : KeyedPasskeys s' := by
  cases c with
  | drawId =>
    obtain ⟨rfl, rfl⟩ := Prod.mk.inj hresp
    exact hs
  | ask q =>
    obtain ⟨rfl, rfl⟩ := Prod.mk.inj hresp
    exact hs
  | store x =>
    simp only [respond, respondStore] at hresp
    split at hresp
    · obtain ⟨rfl, rfl⟩ := Prod.mk.inj hresp
      exact exec_keyed hs x
    · obtain ⟨rfl, rfl⟩ := Prod.mk.inj hresp
      exact hs
    · obtain ⟨rfl, rfl⟩ := Prod.mk.inj hresp
      exact exec_keyed hs x

end stores

/-- A store that did not answer, but for an event: only the record of an enrollment counts, whose
loss undoes the enrollment. -/
def Faulted : Exchange Cmd Cmd.Resp → Prop
  | ⟨.store (.append ev), .error _⟩ => ev.kind = .passkeyEnrolled
  | ⟨.store _, .error _⟩ => True
  | _ => False

/-- What a call owes at most, unless a store did not answer it. -/
def OwesOnly (P : Standing → Prop) (h : List (Exchange Cmd Cmd.Resp)) : Prop :=
  ∀ i, OwesRevoke h i → P i ∨ ∃ x ∈ h, Faulted x

/-- A call owes nothing, or a store did not answer it. -/
abbrev Square (h : List (Exchange Cmd Cmd.Resp)) : Prop := OwesOnly (fun _ => False) h

section calls

variable {h : List (Exchange Cmd Cmd.Resp)} {P P' : Standing → Prop} {α : Type} {host : Host}

theorem square_nil : Square [] := fun _ ho => absurd ho not_owes_nil

theorem OwesOnly.mono (hP : OwesOnly P h) (hi : ∀ i, P i → P' i) : OwesOnly P' h :=
  fun i ho => (hP i ho).imp_left (hi i)

theorem OwesOnly.fault (hx : ∃ x ∈ h, Faulted x) : OwesOnly P h := fun _ _ => .inr hx

/-- After one more exchange: what it made, and what was owed and it did not settle. -/
theorem OwesOnly.cons (hP : OwesOnly P h) {x : Exchange Cmd Cmd.Resp}
    (hx : ∀ i, ¬ Settles i x → Makes i x ∨ P i → P' i) : OwesOnly P' (x :: h) := by
  intro i ho
  obtain ⟨hnot, hmakes | howes⟩ := owes_cons.mp ho
  · exact .inl (hx i hnot (.inl hmakes))
  · rcases hP i howes with hi | ⟨y, hy, hfault⟩
    · exact .inl (hx i hnot (.inr hi))
    · exact .inr ⟨y, List.mem_cons_of_mem _ hy, hfault⟩

/-- The commands that leave something amiss, or may. -/
def makerKinds : List Kind := [.putConfirmation, .recordUse, .markClone, .removePasskey, .removeAll]

theorem not_makes {c : Cmd} {r : c.Resp} {i : Standing} (hc : ∀ k ∈ c.kind, k ∉ makerKinds) :
    ¬ Makes i ⟨c, r⟩ := by
  cases c with
  | drawId | ask => exact id
  | store x =>
    have hx := hc x.kind rfl
    cases x with
    | putConfirmation | recordUse | markClone | removePasskey | removeAll =>
      simp [Store.kind, makerKinds] at hx
    | _ => exact id

/-- A program of none of these commands adds nothing to what is owed. -/
theorem ends_neutral {p : Eff α} {K : List Kind} (hp : p.Issues (Within K))
    (hks : ∀ k ∈ K, k ∉ makerKinds) (hP : OwesOnly P h) : p.Ends h fun h' _ => OwesOnly P h' := by
  refine hp.ends (fun h' c r hc hP' => hP'.cons fun i _ hi => ?_) hP
  exact hi.resolve_left (not_makes fun k hk => hks k (hc k hk))

/-- One command of the store, by the answers it may get. -/
theorem ends_store {x : Store} {Q : List (Exchange Cmd Cmd.Resp) → Except ApiError x.Ans → Prop}
    (hok : ∀ a, Q (⟨.store x, .ok a⟩ :: h) (.ok a))
    (herr : ∀ e, Q (⟨.store x, .error e⟩ :: h) (.error (.db e))) : (store x).Ends h Q := by
  simp only [store, tryStore, Prog.bind_eq, Prog.bind_call, Prog.bind_ok, Prog.ends_call]
  intro r
  cases r with
  | ok a => exact hok a
  | error e => exact herr e

theorem faulted_error {x : Store} (hx : x.kind ≠ .append) (e : IdentityError) :
    Faulted ⟨.store x, .error e⟩ := by
  cases x with
  | append ev => exact absurd rfl hx
  | _ => trivial

theorem owesOnly_faulted {x : Store} (hx : x.kind ≠ .append) {e : IdentityError} :
    OwesOnly P (⟨.store x, .error e⟩ :: h) :=
  .fault ⟨_, List.mem_cons_self, faulted_error hx e⟩

/-- Once a passkey's confirmations are revoked, nothing is owed for it. -/
theorem ends_deleteForPasskey {id : Id} (hP : OwesOnly (fun i => i.passkey = id) h) :
    (store (.deleteForPasskey id)).Ends h fun h' _ => Square h' := by
  refine ends_store (fun a => hP.cons fun i hnot hi => ?_) fun e =>
    owesOnly_faulted (by simp [Store.kind])
  exact hnot (hi.resolve_left fun hmakes => hmakes).symm

theorem ends_deleteWindowsFor {principal : Text} (hP : OwesOnly (fun i => i.principal = principal) h) :
    (store (.deleteWindowsFor principal)).Ends h fun h' _ => Square h' := by
  refine ends_store (fun a => hP.cons fun i hnot hi => ?_) fun e =>
    owesOnly_faulted (by simp [Store.kind])
  exact hnot (hi.resolve_left fun hmakes => hmakes).symm

theorem ends_refuseClone {caller : Caller} {facts : SessionFacts} {passkey : Passkey} {now : ℤ}
    (hP : OwesOnly (fun i => i.passkey = passkey.id) h) :
    (refuseClone caller facts passkey now : Eff α).Ends h fun h' _ => Square h' := by
  refine Prog.Ends.bind (ends_deleteForPasskey hP) (fun h' _ hsq => ?_) fun h' e hsq => hsq
  refine Prog.Ends.bind (ends_neutral passkeyEvent_within (by simp [makerKinds]) hsq)
    (fun h'' _ hsq' => hsq') fun h'' e hsq' => hsq'

/-- A neutral program first, then the rest. -/
theorem ends_after {β : Type} {p : Eff α} {f : α → Eff β} {K : List Kind}
    (hp : p.Issues (Within K)) (hks : ∀ k ∈ K, k ∉ makerKinds) (hP : OwesOnly P h)
    (hf : ∀ h' a, OwesOnly P h' → (f a).Ends h' fun h'' _ => OwesOnly P h'') :
    (p.bind f).Ends h fun h' _ => OwesOnly P h' :=
  Prog.Ends.bind (ends_neutral hp hks hP) (fun h' a hP' => hf h' a hP') fun _ _ hP' => hP'

/-- A use refused as a clone's owes what its passkey signed, and revokes it. -/
theorem ends_acceptUse {caller : Caller} {facts : SessionFacts} {passkey : Passkey}
    {ok : AssertionOk} {now : ℤ} (hsq : Square h) :
    (acceptUse caller facts passkey ok now).Ends h fun h' _ => Square h' := by
  refine Prog.Ends.bind (Q := fun h' x => OwesOnly (fun i => i.passkey = passkey.id) h' ∧
    (x ≠ .ok .cloneSuspected → Square h')) ?_ (fun h' u hP => ?_) fun h' e hP => hP.2 (by simp)
  · refine ends_store (fun u => ⟨hsq.cons fun i _ hi => ?_, fun hu => hsq.cons fun i _ hi => ?_⟩)
      fun e => ⟨owesOnly_faulted (by simp [Store.kind]),
        fun _ => owesOnly_faulted (by simp [Store.kind])⟩
    · exact (hi.resolve_right fun hf => hf).1.symm
    · obtain ⟨-, hrecorded, hfound⟩ := hi.resolve_right fun hf => hf
      cases u with
      | recorded => exact hrecorded rfl
      | cloneSuspected => exact hu rfl
      | notFound => exact hfound rfl
  · cases u with
    | recorded => exact hP.2 (by simp)
    | cloneSuspected => exact ends_refuseClone hP.1
    | notFound => exact hP.2 (by simp)

/-- A passkey found cloned is flagged, owes what it signed, and revokes it. -/
theorem ends_markClone {caller : Caller} {facts : SessionFacts} {passkey : Passkey} {now : ℤ}
    (hsq : Square h) : (do
      let _ ← store (.markClone passkey.id now)
      refuseClone caller facts passkey now : Eff α).Ends h fun h' _ => Square h' := by
  refine Prog.Ends.bind (Q := fun h' x => OwesOnly (fun i => i.passkey = passkey.id) h' ∧
    ∀ e, x = .error e → Square h') ?_ (fun h' _ hP => ends_refuseClone hP.1)
    fun h' e hP => hP.2 e rfl
  refine ends_store (fun a => ⟨hsq.cons fun i _ hi => ?_, by simp⟩) fun e =>
    ⟨owesOnly_faulted (by simp [Store.kind]), fun _ _ => owesOnly_faulted (by simp [Store.kind])⟩
  exact (hi.resolve_right fun hf => hf).symm

theorem ends_verifyAssertionOnce {caller : Caller} {facts : SessionFacts} {sent credential : Bytes}
    {now : ℤ} (hsq : Square h) :
    (verifyAssertionOnce host caller facts sent credential now).Ends h fun h' _ => Square h' := by
  refine ends_after (K := []) (orElse_within _) (by simp) hsq fun h₁ rawId hsq => ?_
  refine ends_after (K := [.readPasskeys]) (store_within (by simp [Store.kind]))
    (by simp [makerKinds]) hsq fun h₂ found hsq => ?_
  refine ends_after (K := []) (orElse_within _) (by simp) hsq fun h₃ passkey hsq => ?_
  split
  · exact ends_after (K := []) event_within (by simp) hsq fun h₄ ev hsq =>
      ends_after record_within (by simp [makerKinds]) hsq fun _ _ hsq => hsq
  split
  · exact hsq
  refine ends_after handleOf_within (by simp [makerKinds]) hsq fun h₄ handle hsq => ?_
  dsimp only
  split
  · exact ends_markClone hsq
  · exact hsq
  · exact ends_after noteRegressed_within (by simp [makerKinds]) hsq fun h₅ _ hsq =>
      ends_acceptUse hsq

theorem ends_verifyAssertion {caller : Caller} {facts : SessionFacts} {sent credential : Bytes}
    {now : ℤ} (hsq : Square h) :
    (verifyAssertion host caller facts sent credential now).Ends h fun h' _ => Square h' := by
  refine Prog.Ends.bind (Q := fun h' _ => Square h')
    (Prog.Ends.attempt (ends_verifyAssertionOnce hsq)) (fun h' x hsq => ?_) fun h' e hsq => hsq
  cases x with
  | ok passkey => exact hsq
  | error e =>
    exact ends_after recordFailedAssertion_within (by simp [makerKinds]) hsq fun _ _ hsq => hsq

/-- A confirmation stored is owed until its passkey is read back usable, or it is revoked. -/
theorem ends_putConfirmationWhileUsable {confirmation : StepUpConfirmation} {passkey : Passkey}
    (hid : confirmation.passkeyId = passkey.id) (hsq : Square h) :
    (putConfirmationWhileUsable confirmation passkey).Ends h fun h' _ => Square h' := by
  refine Prog.Ends.bind (Q := fun h' x => OwesOnly (· = confirmation.standing) h' ∧
    ∀ e, x = .error e → Square h') ?_ (fun h₁ _ hP => ?_) fun h' e hP => hP.2 e rfl
  · refine ends_store (fun a => ⟨hsq.cons fun i _ hi => ?_, by simp⟩) fun e =>
      ⟨owesOnly_faulted (by simp [Store.kind]), fun _ _ => owesOnly_faulted (by simp [Store.kind])⟩
    exact (hi.resolve_right fun hf => hf).2.symm
  refine Prog.Ends.bind (Q := fun h' x => OwesOnly (· = confirmation.standing) h' ∧
    (∀ e, x = .error e → Square h') ∧ ∀ p, x = .ok (some p) → p.id = passkey.id →
      p.principal = confirmation.principal → p.cloneSuspectedAt = none → Square h') ?_
    (fun h₂ found hP => ?_) fun h' e hP => hP.2.1 e rfl
  · refine ends_store (fun found => ⟨hP.1.cons fun i _ hi => ?_, by simp, ?_⟩) fun e =>
      ⟨owesOnly_faulted (by simp [Store.kind]),
        fun _ _ => owesOnly_faulted (by simp [Store.kind]), by simp⟩
    · exact hi.resolve_left fun hmakes => hmakes
    · intro p hp hpid hprincipal hunflagged
      obtain rfl := Except.ok.inj hp
      refine hP.1.cons fun i hnot hi => hnot ?_
      obtain rfl := hi.resolve_left fun hmakes => hmakes
      exact ⟨hpid.trans hid.symm, hprincipal, hunflagged⟩
  · split
    · next hany =>
      obtain ⟨p, rfl, hp⟩ := Option.any_eq_true _ _ |>.mp hany
      simp only [decide_eq_true_eq] at hp
      exact hP.2.2 p rfl hp.1 hp.2.1 (Option.isNone_iff_eq_none.mp hp.2.2)
    · refine Prog.Ends.bind (ends_deleteForPasskey (hP.1.mono ?_)) (fun _ _ hsq => hsq)
        fun _ _ hsq => hsq
      rintro i rfl
      exact hid

theorem ends_removePasskey {replay : Option ReplayAuthority} {caller : Caller} {id : Id}
    {confirmation : Option Id} (hsq : Square h) :
    (removePasskey replay caller id confirmation).Ends h fun h' _ => Square h' := by
  refine ends_after (K := [.readPasskeys]) (store_within (by simp [Store.kind]))
    (by simp [makerKinds]) hsq fun h₁ held hsq => ?_
  split
  · exact hsq
  refine ends_after (K := [.deleteForPasskey]) (store_within (by simp [Store.kind]))
    (by simp [makerKinds]) hsq fun h₂ _ hsq => ?_
  refine Prog.Ends.bind (Q := fun h' x => OwesOnly (fun i => i.passkey = id) h' ∧
    (x ≠ .ok true → Square h')) ?_ (fun h₃ removed hP => ?_) fun h' e hP => hP.2 (by simp)
  · refine ends_store (fun removed => ⟨hsq.cons fun i _ hi => ?_, fun hno => hsq.cons
      fun i _ hi => ?_⟩) fun e => ⟨owesOnly_faulted (by simp [Store.kind]),
        fun _ => owesOnly_faulted (by simp [Store.kind])⟩
    · exact (hi.resolve_right fun hf => hf).1.symm
    · have hremoved := (hi.resolve_right fun hf => hf).2
      cases removed with
      | true => exact hno rfl
      | false => exact hremoved rfl
  split
  · next hno => exact hP.2 (by simpa using hno)
  · -- the second revocation settles what was confirmed since the first
    refine Prog.Ends.bind (Q := fun h' _ => Square h') ?_ (fun h₄ late hsq => ?_)
      fun _ _ hsq => hsq
    · simp only [tryStore, Prog.ends_call, Prog.ends_ok]
      intro late
      cases late with
      | ok n =>
        refine hP.1.cons fun i hnot hi => hnot ?_
        exact (hi.resolve_left fun hmakes => hmakes).symm
      | error e => exact owesOnly_faulted (by simp [Store.kind])
    · refine ends_after (K := []) clock_within (by simp) hsq fun h₅ now hsq => ?_
      refine ends_after (K := []) event_within (by simp) hsq fun h₆ ev hsq => ?_
      refine ends_after record_within (by simp [makerKinds]) hsq fun h₇ _ hsq => ?_
      cases late with
      | ok n => exact hsq
      | error e => exact hsq

/-- Every passkey of a principal goes, and what they signed after them. -/
theorem ends_removeAll {principal : Text} {rest : Eff α} {K : List Kind}
    (hrest : rest.Issues (Within K)) (hks : ∀ k ∈ K, k ∉ makerKinds) (hsq : Square h) : (do
      let _ ← store (.removeAll principal)
      let _ ← store (.deleteWindowsFor principal)
      rest : Eff α).Ends h fun h' _ => Square h' := by
  refine Prog.Ends.bind (Q := fun h' x => OwesOnly (fun i => i.principal = principal) h' ∧
    ∀ e, x = .error e → Square h') ?_ (fun h₁ _ hP => ?_) fun h' e hP => hP.2 e rfl
  · refine ends_store (fun a => ⟨hsq.cons fun i _ hi => ?_, by simp⟩) fun e =>
      ⟨owesOnly_faulted (by simp [Store.kind]), fun _ _ => owesOnly_faulted (by simp [Store.kind])⟩
    exact (hi.resolve_right fun hf => hf).symm
  · exact Prog.Ends.bind (ends_deleteWindowsFor hP.1) (fun h₂ _ hsq => ends_neutral hrest hks hsq)
      fun _ _ hsq => hsq

theorem ends_crownJewelHandler {replay : Option ReplayAuthority} {caller : Caller}
    {raw : RawRequest} {w : CrownJewel} {confirmation : Option Id} (hsq : Square h) :
    (crownJewelHandler replay caller raw w confirmation).Ends h fun h' _ => Square h' := by
  cases w with
  | passkeyRemove id => exact ends_removePasskey hsq
  | passkeyReset =>
    refine ends_after (K := []) (ask_within (by simp)) (by simp) hsq fun h₁ target hsq => ?_
    refine ends_after (K := []) (orElse_within _) (by simp) hsq fun h₂ subject hsq => ?_
    refine ends_removeAll (K := [.append]) ?_ (by simp [makerKinds]) hsq
    exact Prog.Issues.bind clock_within fun now => Prog.Issues.bind event_within fun ev =>
      Prog.Issues.bind record_within fun _ => trivial
  | other =>
    refine ends_after (K := []) (ask_within (by simp)) (by simp) hsq fun h₁ allowed hsq => ?_
    split
    · exact ends_neutral (K := [.perform]) ⟨by simp [Within, Cmd.kind], fun _ => trivial⟩
        (by simp [makerKinds]) hsq
    · exact hsq

theorem conditionalHandler_within {replay : Option ReplayAuthority} {p : Prepared}
    {w : Conditional} : (conditionalHandler host replay p w).Issues
      (Within (.perform :: .userHandle :: requireKinds)) := by
  have hperform : ∀ caller raw, (ask (.perform caller raw)).Issues
      (Within (.perform :: .userHandle :: requireKinds)) := fun caller raw =>
    ⟨by simp [Within, Cmd.kind], fun _ => trivial⟩
  cases w with
  | passkeyAdd label => exact within_mono passkeyRegistrationOptions_within (by simp)
  | other =>
    refine Prog.Issues.bind (ask_within (by simp)) fun allowed => ?_
    split
    · refine Prog.Issues.bind (ask_within (by simp)) fun judged => ?_
      cases judged with
      | none => exact Prog.Issues.bind (hperform _ _) fun _ => trivial
      | some loosenings =>
        exact Prog.Issues.bind (within_mono authorise_within (by simp [requireKinds]))
          fun _ => Prog.Issues.bind (hperform _ _) fun _ => trivial
    · trivial

theorem ends_guard {replay : Option ReplayAuthority} {caller : Caller} {raw : RawRequest}
    (hsq : Square h) : (guard host replay caller raw).Ends h fun h' _ => Square h' := by
  unfold guard
  split
  · exact hsq
  split
  · refine ends_after (K := []) (ask_within (by simp)) (by simp) hsq fun h₁ reaches hsq => ?_
    split
    · refine ends_after (K := []) (ask_within (by simp)) (by simp) hsq fun h₂ org hsq => ?_
      refine ends_after authorise_within (by simp [makerKinds, requireKinds]) hsq
        fun h₃ confirmation hsq => ?_
      refine Prog.Ends.bind (Q := fun h' _ => Square h')
        (Prog.Ends.attempt (ends_crownJewelHandler hsq)) (fun h₄ resp hsq => ?_)
        fun _ _ hsq => hsq
      refine ends_after completed_within (by simp [makerKinds]) hsq fun h₅ _ hsq => ?_
      exact ends_neutral (K := []) (orError_within _) (by simp) hsq
    · exact ends_crownJewelHandler hsq
  · refine ends_after (K := []) (ask_within (by simp)) (by simp) hsq fun h₁ org hsq => ?_
    refine ends_after conditionalHandler_within (by simp [makerKinds, requireKinds]) hsq
      fun h₂ answer hsq => ?_
    exact ends_after completedTicket_within (by simp [makerKinds]) hsq fun h₃ _ hsq =>
      ends_neutral (K := []) (orError_within _) (by simp) hsq

theorem ends_passkeyRegistration {caller : Caller} {challengeId : Id} {credential : Bytes}
    (hsq : Square h) :
    (passkeyRegistration host caller challengeId credential).Ends h fun h' _ => Square h' := by
  refine ends_after browserSession_within (by simp [makerKinds]) hsq fun h₁ facts hsq => ?_
  refine ends_after (K := []) clock_within (by simp) hsq fun h₂ now hsq => ?_
  refine ends_after consume_within (by simp [makerKinds]) hsq fun h₃ answer hsq => ?_
  obtain ⟨row, sent⟩ := answer
  dsimp only
  split
  · exact hsq
  refine ends_after (K := [.readPasskeys]) (store_within (by simp [Store.kind]))
    (by simp [makerKinds]) hsq fun h₄ held hsq => ?_
  split
  · exact hsq
  refine ends_after usablePasskeys_within (by simp [makerKinds]) hsq fun h₅ _ hsq => ?_
  refine ends_after (K := []) ⟨within_drawId _, fun _ => trivial⟩ (by simp) hsq fun h₆ id hsq => ?_
  refine ends_after (K := [.insertPasskey]) (tryStore_within (by simp [Store.kind]))
    (by simp [makerKinds]) hsq fun h₇ inserted hsq => ?_
  split
  · exact hsq
  · exact hsq
  simp only [event, randomId, tryStore, Prog.bind_eq, Prog.bind_call, Prog.bind_ok, Prog.pure_eq,
    Prog.ends_call]
  intro eventId logged
  cases logged with
  | ok _ =>
    refine (hsq.cons fun i _ hi => ?_ : Square _).cons fun i _ hi => ?_
    · exact hi.resolve_left fun hmakes => hmakes
    · exact hi.resolve_left fun hmakes => hmakes
  | error e =>
    -- the undo of an enrollment that could not be recorded
    simp only [Prog.ends_call, Prog.ends_err]
    intro undone
    exact .fault ⟨_, List.mem_cons_of_mem _ List.mem_cons_self, rfl⟩

theorem ends_stepUpConfirm {caller : Caller} {challengeId : Id} {credential : Bytes}
    (hsq : Square h) :
    (stepUpConfirm host caller challengeId credential).Ends h fun h' _ => Square h' := by
  refine ends_after browserSession_within (by simp [makerKinds]) hsq fun h₁ facts hsq => ?_
  refine ends_after (K := []) clock_within (by simp) hsq fun h₂ now hsq => ?_
  refine ends_after consume_within (by simp [makerKinds]) hsq fun h₃ answer hsq => ?_
  refine Prog.Ends.bind (ends_verifyAssertion hsq) (fun h₄ passkey hsq => ?_) fun _ _ hsq => hsq
  refine ends_after (K := []) ⟨within_drawId _, fun _ => trivial⟩ (by simp) hsq fun h₅ id hsq => ?_
  refine ends_after (K := []) event_within (by simp) hsq fun h₆ ev hsq => ?_
  refine ends_after (K := [.append]) (tryStore_within (by simp [Store.kind]))
    (by simp [makerKinds]) hsq fun h₇ logged hsq => ?_
  split
  · exact hsq
  · exact Prog.Ends.bind (ends_putConfirmationWhileUsable rfl hsq) (fun _ _ hsq => hsq)
      fun _ _ hsq => hsq

theorem ends_executeBegun {caller : Caller} {facts : SessionFacts} {r : StepUpRequest}
    {passkey : Passkey} {confirmationId : Id} {now : ℤ} (hsq : Square h) :
    (executeBegun host caller facts r passkey confirmationId now).Ends h fun h' _ => Square h' := by
  refine Prog.Ends.bind (Q := fun h' _ => Square h') ?_ (fun h₁ _ hsq => ?_) fun _ _ hsq => hsq
  · refine ends_store (fun a => hsq.cons fun i _ hi => ?_) fun e =>
      owesOnly_faulted (by simp [Store.kind])
    rcases hi with ⟨hstands, -⟩ | hf
    · simp [StepUpConfirmation.stands] at hstands
    · exact hf
  refine ends_after (K := []) requestEvent_within (by simp) hsq fun h₂ ev hsq => ?_
  refine ends_after (K := [.append]) (tryStore_within (by simp [Store.kind]))
    (by simp [makerKinds]) hsq fun h₃ logged hsq => ?_
  refine ends_after (K := []) requestEvent_within (by simp) hsq fun h₄ ev hsq => ?_
  refine ends_after record_within (by simp [makerKinds]) hsq fun h₅ _ hsq => ?_
  split
  · refine Prog.Ends.bind (Q := fun h' _ => Square h') (Prog.Ends.attempt ?_)
      (fun h₆ outcome hsq => ends_neutral settle_within (by simp [makerKinds]) hsq)
      fun _ _ hsq => hsq
    exact ends_after (K := []) replayCaller_within (by simp) hsq fun h₇ caller hsq =>
      ends_guard hsq
  · exact ends_neutral settle_within (by simp [makerKinds]) hsq

theorem ends_confirmRequest {caller : Caller} {id challengeId : Id} {credential : Bytes}
    (hsq : Square h) :
    (confirmRequest host caller id challengeId credential).Ends h fun h' _ => Square h' := by
  refine ends_after browserSession_within (by simp [makerKinds]) hsq fun h₁ facts hsq => ?_
  refine ends_after loadAsHuman_within (by simp [makerKinds]) hsq fun h₂ r hsq => ?_
  refine ends_after (K := []) clock_within (by simp) hsq fun h₃ now hsq => ?_
  refine ends_after (K := []) confirmable_within (by simp) hsq fun h₄ _ hsq => ?_
  refine ends_after consume_within (by simp [makerKinds]) hsq fun h₅ answer hsq => ?_
  obtain ⟨row, sent⟩ := answer
  dsimp only
  split
  · exact hsq
  refine Prog.Ends.bind (ends_verifyAssertion hsq) (fun h₆ passkey hsq => ?_) fun _ _ hsq => hsq
  refine ends_after (K := []) ⟨within_drawId _, fun _ => trivial⟩ (by simp) hsq
    fun h₇ confirmationId hsq => ?_
  refine ends_after (K := [.beginExecution]) (store_within (by simp [Store.kind]))
    (by simp [makerKinds]) hsq fun h₈ begun hsq => ?_
  cases begun with
  | begun r => exact ends_executeBegun hsq
  | notFound => exact hsq
  | expired => exact hsq
  | notPending state => exact hsq

/-- Every call ends square. -/
theorem ends_handle (l : Call) : (handle host l).Ends [] fun h' _ => Square h' := by
  have hsq := square_nil
  cases l with
  | governed caller raw =>
    exact Prog.Ends.bind (ends_guard hsq) (fun _ _ hsq => hsq) fun _ _ hsq => hsq
  | registration caller challengeId credential => exact ends_passkeyRegistration hsq
  | stepUpOptions caller => exact ends_neutral stepUpOptions_within (by simp [makerKinds]) hsq
  | stepUpConfirm caller challengeId credential => exact ends_stepUpConfirm hsq
  | requestOptions caller id => exact ends_neutral requestOptions_within (by simp [makerKinds]) hsq
  | confirmRequest caller id challengeId credential => exact ends_confirmRequest hsq
  | resetPasskeys principal now =>
    refine ends_after (K := []) (ask_within (by simp)) (by simp) hsq fun h₁ target hsq => ?_
    refine ends_after (K := []) (orElse_within _) (by simp) hsq fun h₂ subject hsq => ?_
    refine ends_after (K := [.readPasskeys]) (store_within (by simp [Store.kind]))
      (by simp [makerKinds]) hsq fun h₃ held hsq => ?_
    refine ends_after (K := []) event_within (by simp) hsq fun h₄ ev hsq => ?_
    refine ends_after (K := [.append]) (store_within (by simp [Store.kind]))
      (by simp [makerKinds]) hsq fun h₅ _ hsq => ?_
    exact ends_removeAll (K := []) trivial (by simp) hsq
  | reap => exact ends_neutral reapStepUp_within (by simp [makerKinds]) hsq

end calls

section runs

variable {host : Host} {cond : Config (stepUp host) → Entry (stepUp host) → Prop} {s : Stores}
  {g : Config (stepUp host)}

/-- A call that may still put right what it left amiss, or never will: it is in progress, it
crashed, or a store did not answer it. -/
def Unsettled (g : Config (stepUp host)) (pid : ℕ) : Prop :=
  g.procs pid ≠ none ∨ (∃ e ∈ g.log, e.pid = pid ∧ e.what = .crashed) ∨
    ∃ x ∈ ownOf g.log pid, Faulted x

/-- In every run, whatever the calls in progress: a window or unconsumed action confirmation that
stands was signed by a passkey its principal still holds unflagged, or a call that stored it, or
removed or flagged the passkey, has yet to revoke it, crashed, or had no answer of a store. -/
theorem standing_usable (hkeyed : KeyedPasskeys s) (hnone : s.confirmations = [])
    (hr : Reach cond s g) {c : StepUpConfirmation} (hc : c ∈ g.state.confirmations)
    (hstands : c.stands) : Usable g.state c.standing ∨
      ∃ pid, OwesRevoke (ownOf g.log pid) c.standing ∧ Unsettled g pid := by
  by_cases husable : Usable g.state c.standing
  · exact .inl husable
  refine .inr ?_
  have hamiss : Amiss g.state c.standing := ⟨⟨c, hc, hstands, rfl⟩, husable⟩
  have hstart : ∀ i, ¬ Amiss s i := by
    rintro i ⟨⟨c', hc', -⟩, -⟩
    simp [hnone] at hc'
  have howed : ∀ i, Amiss g.state i → ∃ pid, OwesRevoke (ownOf g.log pid) i :=
    Reach.owed (fun c a s r s' hresp hs => respond_keyed hresp hs)
      (fun c a s r s' hresp hs i h => respond_amiss hresp hs h) hkeyed hstart hr
  obtain ⟨pid, howes⟩ := howed c.standing hamiss
  refine ⟨pid, howes, ?_⟩
  by_cases hproc : g.procs pid = none
  case neg => exact .inl hproc
  obtain ⟨x, hx, -⟩ := howes.made
  obtain ⟨l, hl⟩ := hr.started_of_own hx
  obtain ⟨p, hp, -⟩ | ⟨-, hcrashed | ⟨y, hsquare⟩⟩ := hr.ending ends_handle pid l hl
  · rw [hproc] at hp
    cases hp
  · exact .inr (.inl hcrashed)
  · exact .inr (.inr ((hsquare _ howes).resolve_left fun hf => hf))

/-- A window stored while its passkey is being reset: the call that is to read the passkey again
owes it. -/
theorem standing_usable_reset : ∃ g c pid,
    Reach (M := stepUp sampleHost) (fun _ _ => True) sampleStores g ∧
      c ∈ g.state.confirmations ∧ c.stands = true ∧ g.state.passkeys = [] ∧
      OwesRevoke (ownOf g.log pid) c.standing ∧ Unsettled g pid := by
  obtain ⟨g, hr, htest⟩ := Reach.of_play (M := stepUp sampleHost) sampleStores
    [.start (.stepUpOptions sampleCaller), .runOut 0 9 sampleAnswer,
      .start (.stepUpConfirm sampleCaller 0 []), .acts 1 8 sampleAnswer,
      .start (.resetPasskeys ['u'] 0), .acts 2 5 sampleAnswer]
    (fun g => g.state.confirmations.any (·.stands) && g.state.passkeys.isEmpty)
    (by decide +kernel)
  rw [Bool.and_eq_true, List.any_eq_true, List.isEmpty_iff] at htest
  obtain ⟨⟨c, hc, hstands⟩, hnone⟩ := htest
  have hkeyed : KeyedPasskeys sampleStores := List.nodup_singleton _
  rcases standing_usable hkeyed rfl hr hc hstands with ⟨p, hp, -⟩ | ⟨pid, howes, hun⟩
  · rw [hnone] at hp
    cases hp
  · exact ⟨g, c, pid, hr, hc, hstands, hnone, howes, hun⟩

end runs

end Scarab.StepUp
