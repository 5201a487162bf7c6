import Scarab.DepotReclaim

/-!
# Rules for the Depot's programs

What it takes for a program to issue only justified commands, one rule a command; and the
commands of the read paths, which no table has to account for.
-/
namespace Scarab.Depot

open RowStore Interleave

/-- A call's past exchanges, newest first. -/
abbrev Past := List (Exchange Cmd Resp)

section rules

variable {α : Type} {J : Past → Cmd → Prop} {h : Past} {t : ℕ}

theorem forall_option {P : Option α → Prop} (hnone : P none) : (∀ r, P r) ↔ ∀ a, P (some a) := by
  constructor
  · intro h a
    exact h (some a)
  · intro h r
    cases r with
    | none => exact hnone
    | some a => exact h a

theorem wp_begin {Q : Past → ℕ → Prop} :
    begin.wp J h Q ↔ J h .begin ∧ ∀ t, Q (⟨.begin, some t⟩ :: h) t :=
  and_congr_right fun _ => forall_option trivial

theorem wp_ask {q : Query} {Q : Past → q.Ans → Prop} :
    (ask q).wp J h Q ↔ J h (.ask none q) ∧ ∀ a, Q (⟨.ask none q, some a⟩ :: h) a :=
  and_congr_right fun _ => forall_option trivial

theorem wp_stmt {x : Stmt} {Q : Past → x.Ans → Prop} :
    (stmt t x).wp J h Q ↔ J h (.stmt t x) ∧ ∀ a, Q (⟨.stmt t x, some a⟩ :: h) a :=
  and_congr_right fun _ => forall_option trivial

theorem wp_commit {Q : Past → Unit → Prop} :
    (commit t).wp J h Q ↔ J h (.commit t) ∧ ∀ a, Q (⟨.commit t, some a⟩ :: h) a :=
  and_congr_right fun _ => forall_option trivial

end rules

section issues

variable {α : Type} {K : Cmd → Prop} {t : ℕ}

@[simp] theorem issues_orFail (o : Option α) : (orFail o).Issues K := by
  cases o <;> trivial

@[simp] theorem issues_orBadRequest (o : Option α) : (orBadRequest o).Issues K := by
  cases o <;> trivial

@[simp] theorem issues_orError (x : Except WsError α) : (orError x).Issues K := by
  cases x <;> trivial

@[simp] theorem issues_succeeded (b : Bool) : (succeeded b).Issues K := by
  cases b <;> trivial

@[simp] theorem issues_now : now.Issues K ↔ K .clock := by simp [now]

@[simp] theorem issues_begin : begin.Issues K ↔ K .begin := by simp [begin]

@[simp] theorem issues_ask (q : Query) : (ask q).Issues K ↔ K (.ask none q) := by simp [ask]

@[simp] theorem issues_askIn (q : Query) : (askIn t q).Issues K ↔ K (.ask (some t) q) := by
  simp [askIn]

@[simp] theorem issues_stmt (x : Stmt) : (stmt t x).Issues K ↔ K (.stmt t x) := by simp [stmt]

@[simp] theorem issues_commit : (commit t).Issues K ↔ K (.commit t) := by simp [commit]

@[simp] theorem issues_rollback : (rollback t).Issues K ↔ K (.rollback t) := by simp [rollback]

@[simp] theorem issues_store (x : Store) : (store x).Issues K ↔ K (.store x) := by simp [store]

end issues

/-- Commands that no argument about the tables or the bucket has to account for. -/
def Cmd.quiet : Cmd → Bool
  | .clock | .runRow | .begin | .ask none _ | .rollback _ => true
  | .store (.finishPack _) | .store (.saveSession _ _) | .store (.deleteObject _) => false
  | .store _ => true
  | _ => false

/-- A program of quiet commands only. -/
abbrev Quiet {α : Type} (p : Eff α) : Prop := p.Issues fun c => c.quiet = true

section quiet

variable (host : Host) (replica : ℕ)

theorem readPacked_quiet (kind : PackMemberKind) (hex : Text) :
    Quiet (readPacked host replica kind hex) := by
  rw [Quiet, readPacked]
  refine Prog.Issues.bind ((issues_ask _).mpr rfl) fun m => ?_
  cases m with
  | none => trivial
  | some m =>
    refine Prog.Issues.bind ((issues_store _).mpr rfl) fun range => ?_
    cases range with
    | notFound => trivial
    | failed => trivial
    | found bytes =>
      dsimp only
      split_ifs
      · trivial
      · exact Prog.Issues.bind ((issues_store _).mpr rfl) fun _ => trivial

theorem viaPackThenLoose_quiet (kind : PackMemberKind) (hex : Text) :
    Quiet (viaPackThenLoose host replica kind hex) := by
  rw [Quiet, viaPackThenLoose]
  refine Prog.Issues.bind (readPacked_quiet host replica kind hex).attempt fun r => ?_
  cases r with
  | error e =>
    refine Prog.Issues.bind ((issues_store _).mpr rfl) fun r => ?_
    cases r <;> trivial
  | ok r =>
    cases r with
    | none =>
      refine Prog.Issues.bind ((issues_store _).mpr rfl) fun r => ?_
      cases r <;> trivial
    | some bytes => trivial

theorem readTree_quiet (hex : Text) : Quiet (readTree host replica hex) := by
  rw [Quiet, readTree]
  refine Prog.Issues.bind ((issues_store _).mpr rfl) fun r => ?_
  cases r with
  | some bytes => trivial
  | none =>
    refine Prog.Issues.bind (viaPackThenLoose_quiet host replica .tree hex).attempt fun r => ?_
    cases r with
    | ok bytes => trivial
    | error e => cases e <;> trivial

theorem walkTrees_quiet (ledger : List Text) (rounds : ℕ) (visited frontier blobs : List Text) :
    Quiet (walkTrees host replica ledger rounds visited frontier blobs) := by
  induction rounds generalizing visited frontier blobs with
  | zero => trivial
  | succ rounds ih =>
    rw [walkTrees]
    split_ifs
    · trivial
    · cases takeLevel ledger frontier visited [] with
      | error tree => trivial
      | ok r =>
        refine Prog.Issues.bind
          (Prog.Issues.collect fun hex _ => readTree_quiet host replica hex) fun reads => ?_
        cases gather host r.2 reads [] blobs with
        | error tree => cases tree <;> trivial
        | ok next => exact ih r.1 next.1 next.2

theorem firstCold_quiet (blobs : List Text) : Quiet (firstCold replica blobs) := by
  induction blobs with
  | nil => trivial
  | cons blob blobs ih =>
    refine Prog.Issues.bind ((issues_store _).mpr rfl) fun there => ?_
    cases there with
    | true => exact ih
    | false => trivial

theorem validateDrainClosure_quiet (f : Fence) (ledger : List Text) (root : Text) :
    Quiet (validateDrainClosure host replica f ledger root) := by
  rw [Quiet, validateDrainClosure]
  refine Prog.Issues.bind (walkTrees_quiet host replica ledger _ _ _ _) fun r => ?_
  cases r with
  | error why => trivial
  | ok c =>
    refine Prog.Issues.bind ((issues_ask _).mpr rfl) fun durable => ?_
    refine Prog.Issues.bind (firstCold_quiet replica _) fun cold => ?_
    cases cold <;> trivial

theorem checkCacheRoots_quiet (ledger : List Text) (roots normalized : List (Text × Text)) :
    Quiet (checkCacheRoots ledger roots normalized) := by
  induction roots generalizing normalized with
  | nil => trivial
  | cons entry rest ih =>
    obtain ⟨dir, root⟩ := entry
    refine Prog.Issues.bind (by simp) fun root => ?_
    split_ifs
    · exact ih _
    · trivial

theorem validOption_quiet (address : Option Text) : Quiet (validOption address) := by
  cases address with
  | none => trivial
  | some a => exact Prog.Issues.bind (by simp) fun _ => trivial

theorem validateRecord_quiet (f : Fence) (record : DrainRecord) :
    Quiet (validateRecord host replica f record) := by
  rw [Quiet, validateRecord]
  refine Prog.Issues.bind (by simp) fun root => ?_
  refine Prog.Issues.bind (validOption_quiet _) fun prunedRoot => ?_
  refine Prog.Issues.bind (validOption_quiet _) fun identity => ?_
  refine Prog.Issues.bind ((issues_ask _).mpr rfl) fun ledger => ?_
  split_ifs
  · split
    · trivial
    · refine Prog.Issues.bind (checkCacheRoots_quiet _ _ _) fun roots => ?_
      cases roots with
      | error why => trivial
      | ok roots =>
        refine Prog.Issues.bind (validateDrainClosure_quiet host replica f _ _) fun r => ?_
        cases r <;> trivial
  · trivial

theorem lostMembers_quiet (f : Fence) (sealedPacks : List (FinishedPack PackKey)) (kind : PackMemberKind)
    (members : List Text) : Quiet (lostMembers f sealedPacks kind members) := by
  rw [Quiet, lostMembers]
  split_ifs
  · trivial
  · exact Prog.Issues.bind ((issues_ask _).mpr rfl) fun _ => trivial

end quiet

/-- The transaction a command is part of. -/
def Cmd.tx : Cmd → Option ℕ
  | .ask t _ => t
  | .stmt t _ => some t
  | .commit t => some t
  | _ => none

def Past.Began (h : Past) (t : ℕ) : Prop := (⟨.begin, some t⟩ : Exchange Cmd Resp) ∈ h

/-- A program of commands in `K` that works in transactions it began itself. -/
def Orderly {α : Type} (K : Cmd → Bool) (p : Eff α) : Prop :=
  ∀ h : Past, p.wp (fun (h : Past) c => K c = true ∧ ∀ t, c.tx = some t → h.Began t) h
    fun _ _ => True

section orderly

variable {α β : Type} {p : Eff α} {K : Cmd → Bool}

theorem Orderly.ok (a : α) : Orderly K (.ok a) := fun _ => trivial

theorem Orderly.err (e : WsError) : Orderly K (.err e : Eff α) := fun _ => trivial

theorem Orderly.bind {f : α → Eff β} (hp : Orderly K p) (hf : ∀ a, Orderly K (f a)) :
    Orderly K (p.bind f) :=
  fun h => Prog.wp_bind (hp h) fun h' a _ _ => hf a h'

theorem Orderly.attempt (hp : Orderly K p) : Orderly K p.attempt :=
  fun h => Prog.wp_attempt (hp h) (fun _ _ _ _ => trivial) fun _ _ _ => trivial

theorem Orderly.forEach {xs : List α} {body : α → Eff Unit}
    (hbody : ∀ x ∈ xs, Orderly K (body x)) : Orderly K (Prog.forEach xs body) :=
  fun _ => Prog.wp_forEach_keeps (I := fun _ => True) trivial fun x hx h' _ _ => hbody x hx h'

/-- A program that stays outside transactions. -/
theorem Orderly.outside (hp : p.Issues fun c => K c = true ∧ c.tx = none) : Orderly K p := by
  intro h
  refine Prog.wp_mono (hp.wp fun h' c _ hc => ⟨hc.1, fun t ht => ?_⟩) fun _ _ _ _ => trivial
  rw [hc.2] at ht
  cases ht

theorem Orderly.store {x : Store} (hK : K (.store x) = true) : Orderly K (store x) :=
  .outside ((issues_store x).mpr ⟨hK, rfl⟩)

theorem Orderly.ask {q : Query} (hK : K (.ask none q) = true) : Orderly K (ask q) :=
  .outside ((issues_ask q).mpr ⟨hK, rfl⟩)

theorem Orderly.now (hK : K .clock = true) : Orderly K now :=
  .outside (issues_now.mpr ⟨hK, rfl⟩)

theorem Orderly.orFail (o : Option α) : Orderly K (orFail o) := .outside (issues_orFail o)

theorem Orderly.orBadRequest (o : Option α) : Orderly K (orBadRequest o) :=
  .outside (issues_orBadRequest o)

theorem Orderly.orError (x : Except WsError α) : Orderly K (orError x) :=
  .outside (issues_orError x)

theorem Orderly.succeeded (b : Bool) : Orderly K (succeeded b) := .outside (issues_succeeded b)

/-- A program that works in one transaction. -/
theorem Orderly.begin {f : ℕ → Eff α} (hK : K .begin = true)
    (hf : ∀ t, (f t).Issues fun c => K c = true ∧ (c.tx = none ∨ c.tx = some t)) :
    Orderly K (begin.bind f) := by
  intro h
  rw [Prog.wp_bind_iff, wp_begin]
  refine ⟨⟨hK, by simp [Cmd.tx]⟩, fun t => ?_⟩
  refine Prog.wp_mono ((hf t).wp fun h' c hs hc => ⟨hc.1, fun u hu => ?_⟩) fun _ _ _ _ => trivial
  rcases hc.2 with hc | hc
  · rw [hc] at hu
    cases hu
  · rw [hc] at hu
    obtain rfl := Option.some.inj hu
    exact hs.suffix.subset List.mem_cons_self

theorem Cmd.tx_of_quiet {c : Cmd} (hc : c.quiet = true) : c.tx = none := by
  cases c with
  | ask t q => cases t <;> simp_all [Cmd.quiet, Cmd.tx]
  | stmt | commit => cases hc
  | clock | runRow | begin | rollback | store => rfl

theorem Quiet.orderly (hp : Quiet p) (hK : ∀ c : Cmd, c.quiet = true → K c = true) :
    Orderly K p :=
  .outside (hp.mono fun c hc => ⟨hK c hc, Cmd.tx_of_quiet hc⟩)

theorem Orderly.issues (hp : Orderly K p) : p.Issues fun c => K c = true :=
  Prog.issues_of_wp (hp []) fun _ _ hJ => hJ.1

theorem Orderly.mono {K' : Cmd → Bool} (hp : Orderly K p) (hK : ∀ c, K c = true → K' c = true) :
    Orderly K' p :=
  fun h => Prog.wp_weaken (hp h) fun _ _ _ hJ => ⟨hK _ hJ.1, hJ.2⟩

end orderly

end Scarab.Depot
