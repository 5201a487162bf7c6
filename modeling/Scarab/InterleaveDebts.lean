import Scarab.InterleaveContract

/-!
# What calls owe

A call that makes something so owes it until the call settles it. Facts of the shared state that
someone must put right, ids that are drawn and then used, and commands issued at most once are all
of this kind.
-/
namespace Scarab.Interleave

section owes

variable {X ι : Type} {makes settles : X → ι → Prop} {h : List X} {x : X} {i : ι}

/-- In a newest-first history something made `i` and nothing since, nor itself, settled it. -/
def Owes (makes settles : X → ι → Prop) (h : List X) (i : ι) : Prop :=
  ∃ newer x older, h = newer ++ x :: older ∧ makes x i ∧ ∀ y ∈ newer ++ [x], ¬ settles y i

theorem not_owes_nil : ¬ Owes makes settles [] i := by
  rintro ⟨newer, x, older, hnil, -⟩
  simp at hnil

theorem owes_cons : Owes makes settles (x :: h) i ↔
    ¬ settles x i ∧ (makes x i ∨ Owes makes settles h i) := by
  constructor
  · rintro ⟨newer, y, older, hsplit, hmakes, hnone⟩
    cases newer with
    | nil =>
      obtain ⟨rfl, rfl⟩ := List.cons.inj hsplit
      exact ⟨hnone x (by simp), .inl hmakes⟩
    | cons z newer =>
      obtain ⟨rfl, htail⟩ := List.cons.inj hsplit
      refine ⟨hnone x (by simp), .inr ⟨newer, y, older, htail, hmakes, fun w hw => ?_⟩⟩
      exact hnone w (List.mem_cons_of_mem _ hw)
  · rintro ⟨hx, hmakes | ⟨newer, y, older, rfl, hmakes, hnone⟩⟩
    · exact ⟨[], x, h, rfl, hmakes, by simpa using hx⟩
    · refine ⟨x :: newer, y, older, rfl, hmakes, fun w hw => ?_⟩
      rcases List.mem_cons.mp hw with rfl | hw
      · exact hx
      · exact hnone w hw

/-- What is owed was made. -/
theorem Owes.made (ho : Owes makes settles h i) : ∃ x ∈ h, makes x i := by
  obtain ⟨newer, x, older, rfl, hmakes, -⟩ := ho
  exact ⟨x, by simp, hmakes⟩

/-- What nothing of `newer` settles stays owed. -/
theorem Owes.append (ho : Owes makes settles h i) {newer : List X}
    (hn : ∀ y ∈ newer, ¬ settles y i) : Owes makes settles (newer ++ h) i := by
  induction newer with
  | nil => exact ho
  | cons y newer ih =>
    refine owes_cons.mpr ⟨hn y List.mem_cons_self, .inr (ih fun z hz => ?_)⟩
    exact hn z (List.mem_cons_of_mem _ hz)

/-- Where every use rests on a making not used since, and nothing is made twice, nothing is used
twice. -/
theorem pairwise_of_owes (honce : h.Pairwise fun x y => makes x i → ¬ makes y i)
    (huses : ∀ newer x older, h = newer ++ x :: older → settles x i →
      Owes makes settles older i) :
    h.Pairwise fun x y => settles x i → ¬ settles y i := by
  induction h with
  | nil => exact .nil
  | cons x h ih =>
    have hrest : ∀ newer y older, h = newer ++ y :: older → settles y i →
        Owes makes settles older i := fun newer y older hsplit =>
      huses (x :: newer) y older (by rw [hsplit]; rfl)
    obtain ⟨-, honce'⟩ := List.pairwise_cons.mp honce
    refine List.pairwise_cons.mpr ⟨fun y hy hx hsettles => ?_, ih honce' hrest⟩
    obtain ⟨newer, z, older, rfl, hmakes, hnone⟩ := huses [] x h rfl hx
    rcases List.mem_append.mp hy with hy | hy
    · exact hnone y (by simp [hy]) hsettles
    · rcases List.mem_cons.mp hy with rfl | hy
      · exact hnone y (by simp) hsettles
      · obtain ⟨pre, post, rfl⟩ := List.append_of_mem hy
        obtain ⟨w, hw, hmade⟩ := (hrest (newer ++ z :: pre) y post (by simp) hsettles).made
        have hpair := (List.pairwise_append.mp honce').2.1
        refine (List.pairwise_cons.mp hpair).1 w ?_ hmakes hmade
        simp [hw]

end owes

section debts

variable {M : Machine} {ι : Type} {cond : Config M → Entry M → Prop} {g g₁ : Config M}
  {s : M.State} {e : Entry M} {pid : ℕ}
  {makes settles : Exchange M.Cmd M.Resp → ι → Prop}

theorem ownOf_cons_did {c : M.Cmd} {r : M.Resp c} {log : List (Entry M)} (hw : e.what = .did c r) :
    ownOf (e :: log) e.pid = ⟨c, r⟩ :: ownOf log e.pid := by
  simp [ownOf, hw]

theorem ownOf_cons_quiet {log : List (Entry M)} (hw : ∀ c r, e.what ≠ .did c r) :
    ownOf (e :: log) pid = ownOf log pid := by
  simp only [ownOf, List.filterMap_cons]
  split_ifs with hp
  · cases hwhat : e.what with
    | did c r => exact absurd hwhat (hw c r)
    | started | returned | crashed => rfl
  · rfl

/-- What every command keeps holds in every reached state. -/
theorem Reach.always {I : M.State → Prop}
    (hstep : ∀ c a s r s', M.respond c a s = (r, s') → I s → I s') (h0 : I s)
    (hr : Reach cond s g) : I g.state := by
  refine Runs.keeps (P := fun g : Config M => I g.state) ?_ hr h0
  intro g e g₁ _ hs _ ih
  rcases hs.state_cases with ⟨hstate, -⟩ | ⟨c, r, a, -, hresp⟩
  · exact hstate ▸ ih
  · exact hstep c a g.state r g₁.state hresp ih

/-- What is amiss in a reached state is owed by a call, when whatever puts it amiss owes it and
whatever settles it leaves it right. -/
theorem Reach.owed {I : M.State → Prop} {amiss : M.State → ι → Prop}
    (hI : ∀ c a s r s', M.respond c a s = (r, s') → I s → I s')
    (hstep : ∀ c a s r s', M.respond c a s = (r, s') → I s → ∀ i, amiss s' i →
      ¬ settles ⟨c, r⟩ i ∧ (makes ⟨c, r⟩ i ∨ amiss s i))
    (hI0 : I s) (h0 : ∀ i, ¬ amiss s i) (hr : Reach cond s g) :
    ∀ i, amiss g.state i → ∃ pid, Owes makes settles (ownOf g.log pid) i := by
  refine Runs.keeps (P := fun g : Config M => ∀ i, amiss g.state i →
    ∃ pid, Owes makes settles (ownOf g.log pid) i) ?_ hr fun i hi => absurd hi (h0 i)
  intro g e g₁ hrun hs hc ih i hi
  rw [hs.log_eq]
  rcases hs.state_cases with ⟨hstate, hquiet⟩ | ⟨c, r, a, hw, hresp⟩
  · obtain ⟨pid, howes⟩ := ih i (hstate ▸ hi)
    exact ⟨pid, by rwa [ownOf_cons_quiet hquiet]⟩
  · have hinv : I g.state := Reach.always hI hI0 hrun
    obtain ⟨hnot, hmakes | hwas⟩ := hstep c a g.state r g₁.state hresp hinv i hi
    · exact ⟨e.pid, by rw [ownOf_cons_did hw]; exact owes_cons.mpr ⟨hnot, .inl hmakes⟩⟩
    · obtain ⟨pid, howes⟩ := ih i hwas
      by_cases hp : e.pid = pid
      · subst hp
        exact ⟨e.pid, by rw [ownOf_cons_did hw]; exact owes_cons.mpr ⟨hnot, .inr howes⟩⟩
      · exact ⟨pid, by rwa [ownOf_cons_ne hp]⟩

/-- No two of a log's exchanges stand in the relation, the newer one first. -/
def Apart (log : List (Entry M)) (R : Exchange M.Cmd M.Resp → Exchange M.Cmd M.Resp → Prop) :
    Prop :=
  log.Pairwise fun e e' => ∀ c r c' r', e.what = .did c r → e'.what = .did c' r' → R ⟨c, r⟩ ⟨c', r'⟩

theorem Apart.own {R : Exchange M.Cmd M.Resp → Exchange M.Cmd M.Resp → Prop}
    {log : List (Entry M)} (h : Apart log R) (pid : ℕ) : (ownOf log pid).Pairwise R := by
  refine List.Pairwise.filterMap _ (fun e e' he x hx y hy => ?_) h
  split_ifs at hx hy
  cases hw : e.what with
  | did c r =>
    cases hw' : e'.what with
    | did c' r' =>
      rw [hw] at hx
      rw [hw'] at hy
      obtain rfl := Option.some.inj hx
      obtain rfl := Option.some.inj hy
      exact he c r c' r' hw hw'
    | started | returned | crashed => simp [hw'] at hy
  | started | returned | crashed => simp [hw] at hx

/-- Two exchanges of a log that draw the same id are of one call. -/
theorem Apart.same_pid {draws : Exchange M.Cmd M.Resp → ι → Prop} {log : List (Entry M)} {i : ι}
    (h : Apart log fun x y => draws x i → ¬ draws y i) {p q : ℕ}
    {x y : Exchange M.Cmd M.Resp} (hx : x ∈ ownOf log p) (hy : y ∈ ownOf log q)
    (hdx : draws x i) (hdy : draws y i) : p = q := by
  obtain ⟨e, he, rfl, hw⟩ := mem_ownOf.mp hx
  obtain ⟨e', he', rfl, hw'⟩ := mem_ownOf.mp hy
  by_contra hne
  have hsymm : Std.Symm fun a b : Entry M => ∀ c r c' r', a.what = .did c r →
      b.what = .did c' r' → draws ⟨c, r⟩ i → ¬ draws ⟨c', r'⟩ i :=
    ⟨fun a b hab c r c' r' ha hb hda hdb => hab c' r' c r hb ha hdb hda⟩
  have hapart := List.Pairwise.forall h he he' fun heq => hne (congrArg Entry.pid heq)
  exact hapart _ _ _ _ hw hw' hdx hdy

/-- Where every use of an id rests on its call having drawn it and not used it since, and no id is
drawn twice, no id is used twice. -/
theorem apart_of_owes {draws uses : Exchange M.Cmd M.Resp → ι → Prop} {log : List (Entry M)} {i : ι}
    (honce : Apart log fun x y => draws x i → ¬ draws y i)
    (huses : ∀ newer e older, log = newer ++ e :: older → ∀ c r, e.what = .did c r →
      uses ⟨c, r⟩ i → Owes draws uses (ownOf older e.pid) i) :
    Apart log fun x y => uses x i → ¬ uses y i := by
  induction log with
  | nil => exact .nil
  | cons e log ih =>
    have hrest := ih (List.pairwise_cons.mp honce).2 fun newer x older hsplit =>
      huses (e :: newer) x older (by rw [hsplit]; rfl)
    refine List.pairwise_cons.mpr ⟨fun e' he' c r c' r' hw hw' hx hy => ?_, hrest⟩
    obtain ⟨pre, post, rfl⟩ := List.append_of_mem he'
    obtain ⟨x, hxmem, hdx⟩ := (huses [] e (pre ++ e' :: post) rfl c r hw hx).made
    obtain ⟨y, hymem, hdy⟩ := (huses (e :: pre) e' post rfl c' r' hw' hy).made
    have honce' : Apart (pre ++ e' :: post) fun x y => draws x i → ¬ draws y i :=
      (List.pairwise_cons.mp honce).2
    have hlater : y ∈ ownOf (pre ++ e' :: post) e'.pid :=
      ownOf_subset (by simp) hymem
    have hpid : e.pid = e'.pid := honce'.same_pid hxmem hlater hdx hdy
    have hlast : ∀ newer x older, ownOf (e :: (pre ++ e' :: post)) e.pid = newer ++ x :: older →
        uses x i → Owes draws uses older i := by
      intro newer x older hsplit hx
      obtain ⟨n, a, o, hlog, hp, hdid, -, ho⟩ := ownOf_split hsplit
      rw [← ho, ← hp]
      exact huses n a o hlog x.1 x.2 hdid hx
    have hown := pairwise_of_owes (Apart.own honce e.pid) hlast
    rw [ownOf_cons_did hw] at hown
    refine (List.pairwise_cons.mp hown).1 ⟨c', r'⟩ ?_ hx hy
    exact mem_ownOf.mpr ⟨e', he', hpid.symm, hw'⟩

end debts

section ends

variable {C : Type} {R : C → Type} {ε α β : Type}

/-- However it is answered, the program ends in `Q`. -/
def Prog.Ends (p : Prog C R ε α) (h : List (Exchange C R))
    (Q : List (Exchange C R) → Except ε α → Prop) : Prop :=
  p.meets (fun _ _ => True) (fun _ => True) h Q

section rules

variable {p : Prog C R ε α} {h : List (Exchange C R)} {Q : List (Exchange C R) → Except ε α → Prop}

@[simp] theorem Prog.ends_ok (a : α) : (Prog.ok a : Prog C R ε α).Ends h Q ↔ Q h (.ok a) := Iff.rfl

@[simp] theorem Prog.ends_err (e : ε) : (Prog.err e : Prog C R ε α).Ends h Q ↔ Q h (.error e) :=
  Iff.rfl

@[simp] theorem Prog.ends_call (c : C) (k : R c → Prog C R ε α) :
    (Prog.call c k).Ends h Q ↔ ∀ r, (k r).Ends (⟨c, r⟩ :: h) Q := by
  simp [Prog.Ends, Prog.meets]

theorem Prog.Ends.bind {f : α → Prog C R ε β} {Q' : List (Exchange C R) → Except ε β → Prop}
    (hp : p.Ends h Q) (hok : ∀ h' a, Q h' (.ok a) → (f a).Ends h' Q')
    (herr : ∀ h' e, Q h' (.error e) → Q' h' (.error e)) : (p.bind f).Ends h Q' :=
  Prog.meets_bind hp (fun h' a _ => hok h' a) fun h' e _ => herr h' e

theorem Prog.Ends.attempt {Q' : List (Exchange C R) → Except ε (Except ε α) → Prop}
    (hp : p.Ends h fun h' x => Q' h' (.ok x)) : p.attempt.Ends h Q' :=
  Prog.meets_attempt hp

/-- What every command of a program keeps holds when it ends. -/
theorem Prog.Issues.ends {K : C → Prop} {I : List (Exchange C R) → Prop} (hp : p.Issues K)
    (hI : ∀ h' c r, K c → I h' → I (⟨c, r⟩ :: h')) (h0 : I h) : p.Ends h fun h' _ => I h' := by
  induction p generalizing h with
  | ok a => exact h0
  | err e => exact h0
  | call c k ih => exact ⟨trivial, fun r _ => ih r (hp.2 r) (hI h c r hp.1 h0)⟩

end rules

variable {M : Machine} {cond : Config M → Entry M → Prop} {g g₁ : Config M} {s : M.State}
  {e : Entry M} {Q : M.Call → List (Exchange M.Cmd M.Resp) → Except M.Err M.Value → Prop}

/-- A call in progress will end in `Q`, and one that has ended without a crash did. -/
def Config.Ending (g : Config M)
    (Q : M.Call → List (Exchange M.Cmd M.Resp) → Except M.Err M.Value → Prop) : Prop :=
  ∀ pid l, StartedAs g.log pid l →
    (∃ p, g.procs pid = some (l, p) ∧ p.Ends (ownOf g.log pid) (Q l)) ∨
    g.procs pid = none ∧ ((∃ e ∈ g.log, e.pid = pid ∧ e.what = .crashed) ∨
      ∃ x, Q l (ownOf g.log pid) x)

/-- A step of one call leaves how the others end alone. -/
theorem Config.Ending.other (h : g.Ending Q) {pid : ℕ} {l : M.Call} (hs : Step g e g₁)
    (hp : e.pid ≠ pid) (hl : StartedAs g₁.log pid l) :
    (∃ p, g₁.procs pid = some (l, p) ∧ p.Ends (ownOf g₁.log pid) (Q l)) ∨
    g₁.procs pid = none ∧ ((∃ e ∈ g₁.log, e.pid = pid ∧ e.what = .crashed) ∨
      ∃ x, Q l (ownOf g₁.log pid) x) := by
  have hlog := hs.log_eq
  have hprocs : g₁.procs pid = g.procs pid := by
    cases hs <;> simp [Config.record, Function.update_of_ne (Ne.symm hp)]
  have hl' : StartedAs g.log pid l := by
    obtain ⟨e', he', hp', hw'⟩ := hl
    rw [hlog] at he'
    rcases List.mem_cons.mp he' with rfl | he'
    · exact absurd hp' hp
    · exact ⟨e', he', hp', hw'⟩
  rw [hlog, ownOf_cons_ne hp, hprocs]
  rcases h pid l hl' with hgoing | ⟨hnone, ⟨e', he', hcrash⟩ | hend⟩
  · exact .inl hgoing
  · exact .inr ⟨hnone, .inl ⟨e', List.mem_cons_of_mem _ he', hcrash⟩⟩
  · exact .inr ⟨hnone, .inr hend⟩

theorem Config.Ending.step (hE : ∀ l, (M.body l).Ends [] (Q l))
    (hj : g.Justified (fun _ _ _ => True) fun _ _ _ => True) (h : g.Ending Q) (hs : Step g e g₁) :
    g₁.Ending Q := by
  intro pid l hl
  by_cases hp : e.pid = pid
  case neg => exact h.other hs hp hl
  subst hp
  cases hs with
  | start l₀ =>
    obtain ⟨-, hlog⟩ := hj.fresh g.next le_rfl
    have hl₀ : l = l₀ := by
      obtain ⟨e', he', hp', hw'⟩ := hl
      rcases List.mem_cons.mp he' with rfl | he'
      · exact (Occurrence.started.inj hw').symm
      · exact absurd hp' (hlog e' he')
    subst hl₀
    have hown : ownOf (⟨g.next, g.state, g.state, .started l⟩ :: g.log) g.next = [] := by
      rw [ownOf_cons_quiet (by simp), ownOf_eq_nil hlog]
    refine .inl ⟨M.body l, by simp [Config.record], ?_⟩
    simpa only [Config.record, hown] using hE l
  | @act pid l₀ c k a r t proc resp =>
    have hl₀ := hl.of_cons (by simp)
    obtain ⟨p, hproc, hends⟩ | ⟨hnone, -⟩ := h pid l hl₀
    · obtain ⟨rfl, rfl⟩ : l₀ = l ∧ Prog.call c k = p := by simpa [proc] using hproc
      refine .inl ⟨k r, by simp [Config.record], ?_⟩
      have hown : ownOf (⟨pid, g.state, t, .did c r⟩ :: g.log) pid = ⟨c, r⟩ :: ownOf g.log pid :=
        ownOf_cons_did rfl
      have hrest : (k r).Ends (⟨c, r⟩ :: ownOf g.log pid) (Q l₀) := hends.2 r trivial
      simpa only [Config.record, hown] using hrest
    · simp [proc] at hnone
  | @finish pid l₀ v proc =>
    obtain ⟨p, hproc, hends⟩ | ⟨hnone, -⟩ := h pid l (hl.of_cons (by simp))
    · obtain ⟨rfl, rfl⟩ : l₀ = l ∧ Prog.ok v = p := by simpa [proc] using hproc
      refine .inr ⟨by simp [Config.record], .inr ⟨.ok v, ?_⟩⟩
      rw [Config.record, ownOf_cons_quiet (by simp)]
      exact hends
    · simp [proc] at hnone
  | @fail pid l₀ x proc =>
    obtain ⟨p, hproc, hends⟩ | ⟨hnone, -⟩ := h pid l (hl.of_cons (by simp))
    · obtain ⟨rfl, rfl⟩ : l₀ = l ∧ Prog.err x = p := by simpa [proc] using hproc
      refine .inr ⟨by simp [Config.record], .inr ⟨.error x, ?_⟩⟩
      rw [Config.record, ownOf_cons_quiet (by simp)]
      exact hends
    · simp [proc] at hnone
  | @crash pid l₀ p proc =>
    exact .inr ⟨by simp [Config.record], .inl ⟨_, List.mem_cons_self, rfl, rfl⟩⟩

/-- In every run a call is in progress, has crashed, or has ended in `Q` on its own exchanges. -/
theorem Reach.ending (hE : ∀ l, (M.body l).Ends [] (Q l)) (hr : Reach cond s g) : g.Ending Q := by
  refine Runs.keeps (P := fun g : Config M => g.Ending Q) ?_ hr ?_
  · intro g₁ e g₂ hrun hs _ h
    have hj : g₁.Justified (fun _ _ _ => True) fun _ _ _ => True :=
      Reach.justified (fun l => Prog.wp_of_forall fun _ _ => trivial) hrun
    exact h.step hE hj hs
  · intro pid l hl
    simp [StartedAs, Config.init] at hl

/-- What a call has done, a call that was started did. -/
theorem Reach.started_of_own (hr : Reach cond s g) {pid : ℕ} {x : Exchange M.Cmd M.Resp}
    (hx : x ∈ ownOf g.log pid) : ∃ l, StartedAs g.log pid l := by
  obtain ⟨g₀, e, g₁, newer, hr₀, hs₀, -, -, hlog, rfl, hw⟩ := hr.moment hx
  have hj : g₀.Justified (fun _ _ _ => True) fun _ _ _ => True :=
    Reach.justified (fun l => Prog.wp_of_forall fun _ _ => trivial) hr₀
  obtain ⟨l, ⟨e', he', hstarted⟩, -⟩ := hs₀.justified hj hw
  exact ⟨l, e', by simp [hlog, he'], hstarted⟩

end ends
end Scarab.Interleave
