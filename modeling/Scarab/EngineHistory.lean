import Scarab.EngineEffects
import Scarab.EngineBackedLaunch

/-!
# Runs of the engine

What a step of a run did to the store, and what a call's past says about the states the run
went through: a read showed the store as it was then, a lost compare-and-set showed that its
guard failed then.
-/
namespace Scarab.Interleave

/-- The store a run has reached. -/
abbrev Config.db (g : Config Engine.engine) : Engine.Db := g.state

/-- The stores around one step of a run. -/
abbrev Entry.pre (e : Entry Engine.engine) : Engine.Db := e.before

abbrev Entry.post (e : Entry Engine.engine) : Engine.Db := e.after

/-- What a step did: one exchange, of the call that took it. -/
abbrev Entry.Did (e : Entry Engine.engine) (t : Engine.Tx) (a : t.Ans) : Prop :=
  e.what = .did (.write t) (.ok a)

open Engine

variable {cond : Config engine → Entry engine → Prop} {g g₁ : Config engine} {e : Entry engine}
  {db₀ : Db}

/-- A commit as a step of a run, with what its call had behind it. -/
structure Commit (g : Config engine) (e : Entry engine) (t : Tx) (a : t.Ans) (db' : Db) : Prop where
  did : e.Did t a
  exec : ∃ w, t.exec w g.db = .ok (a, db')
  backed : ∃ l, StartedAs g.log e.pid l ∧ Backed l (ownOf g.log e.pid) (.write t)

theorem Reach.backed (hr : Reach cond db₀ g) : g.Justified Backed Fulfilled :=
  hr.justified body_backed

/-- A step leaves the store alone or commits one transaction. -/
theorem Reach.step_cases (hr : Reach cond db₀ g) (hs : Step g e g₁) :
    g₁.db = g.db ∨ ∃ t a, Commit g e t a g₁.db := by
  rcases hs.state_cases with ⟨hsame, -⟩ | ⟨c, r, w, hw, hresp⟩
  · exact .inl hsame
  · have hb := hs.justified hr.backed hw
    cases c with
    | read q =>
      left
      simp only [engine, respond] at hresp
      split at hresp <;> exact (Prod.mk.inj hresp).2.symm
    | ask q => exact .inl (Prod.mk.inj hresp).2.symm
    | write t =>
      simp only [engine, respond] at hresp
      split at hresp
      · exact .inl (Prod.mk.inj hresp).2.symm
      · split at hresp
        · next a db' hexec =>
          obtain ⟨rfl, rfl⟩ := Prod.mk.inj hresp
          exact .inr ⟨t, a, hw, ⟨w, hexec⟩, hb⟩
        · exact .inl (Prod.mk.inj hresp).2.symm

/-- A read returns the store as it is. -/
theorem Step.read_eq {q : Query} {x : q.Ans} (hs : Step g e g₁)
    (hw : e.what = .did (.read q) (.ok x)) : x = q.eval g.db ∧ g₁.db = g.db := by
  rcases hs.state_cases with ⟨-, hno⟩ | ⟨c, r, w, hw', hresp⟩
  · exact absurd hw (hno _ _)
  · obtain ⟨rfl, hr⟩ := Occurrence.did.inj (hw'.symm.trans hw)
    obtain rfl := eq_of_heq hr
    simp only [engine, respond] at hresp
    split at hresp
    · exact absurd (Prod.mk.inj hresp).1 nofun
    · exact ⟨(Except.ok.inj (Prod.mk.inj hresp).1).symm, (Prod.mk.inj hresp).2.symm⟩

/-- A step that did a transaction ran it on the store. -/
theorem Step.write_eq {t : Tx} {a : t.Ans} (hs : Step g e g₁) (hw : e.Did t a) :
    ∃ w, t.exec w g.db = .ok (a, g₁.db) := by
  rcases hs.state_cases with ⟨-, hno⟩ | ⟨c, r, w, hw', hresp⟩
  · exact absurd hw (hno _ _)
  · obtain ⟨rfl, hr⟩ := Occurrence.did.inj (hw'.symm.trans hw)
    obtain rfl := eq_of_heq hr
    simp only [engine, respond] at hresp
    split at hresp
    · exact absurd (Prod.mk.inj hresp).1 nofun
    · split at hresp
      · next a' db' hexec =>
        obtain ⟨ha, rfl⟩ := Prod.mk.inj hresp
        obtain rfl := Except.ok.inj ha
        exact ⟨w, hexec⟩
      · exact absurd (Prod.mk.inj hresp).1 nofun

/-- A lost compare-and-set was refused by the store, which it left alone. -/
theorem Step.lost_eq {t : Tx} (hs : Step g e g₁)
    (hw : e.what = .did (.write t) (.error .conflict)) :
    (∃ w, t.exec w g.db = .error .conflict) ∧ g₁.db = g.db := by
  rcases hs.state_cases with ⟨-, hno⟩ | ⟨c, r, w, hw', hresp⟩
  · exact absurd hw (hno _ _)
  · obtain ⟨rfl, hr⟩ := Occurrence.did.inj (hw'.symm.trans hw)
    obtain rfl := eq_of_heq hr
    simp only [engine, respond] at hresp
    split at hresp
    · next f _ =>
      have herr := Except.error.inj (Prod.mk.inj hresp).1
      cases f <;> simp [Fault.error] at herr
    · split at hresp
      · exact absurd (Prod.mk.inj hresp).1 nofun
      · next err hexec =>
        obtain ⟨he, hdb⟩ := Prod.mk.inj hresp
        obtain rfl := Except.error.inj he
        exact ⟨⟨w, hexec⟩, hdb.symm⟩

/-- What a call read was the store at some state of the run. -/
theorem Reach.saw {pid : ℕ} {q : Query} {x : q.Ans} (hr : Reach cond db₀ g)
    (hx : Past.Saw (ownOf g.log pid) q x) :
    ∃ g₀ e newer, Reach cond db₀ g₀ ∧ x = q.eval g₀.db ∧ g.log = newer ++ e :: g₀.log ∧
      e.pid = pid ∧ e.what = .did (.read q) (.ok x) ∧
      ∃ g₁, g₁.db = g₀.db ∧ Step g₀ e g₁ ∧ Reach cond db₀ g₁ ∧ Runs cond g₁ g := by
  obtain ⟨g₀, e, g₁, newer, hr₀, hs, hc, hrun, hlog, hp, hw⟩ := hr.moment hx
  obtain ⟨rfl, hsame⟩ := hs.read_eq hw
  exact ⟨g₀, e, newer, hr₀, rfl, hlog, hp, hw, g₁, hsame, hs, hr₀.next hs hc, hrun⟩

end Scarab.Interleave
