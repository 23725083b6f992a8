import ProcMachines.ProcMachineExternalPoll

/-! What other threads must have done for an `external_poll` to miss something: the external waker
was fired between the end of its tick and the registration of the new one. -/
namespace ProcMachines
namespace ProcMachine

open Transition

variable {W FUT SharedIo OBS ACC Tid : Type}

/-- A thread between the end of its tick and the registration of its waker. -/
def Pc.registers : Pc W → Bool
  | .unlock (.externalPoll _) false | .register _ => true
  | _ => false

/-- Since a tick of the poller has ended nobody has called `external_waker.wake()`. -/
def Undisturbed (poller : Tid) (es : List (Tid × Event W OBS)) : Prop :=
  Unanswered (fun e => e = (poller,.ticked false)) (fun e => ∃ waker, e.2 = .fired waker) es

section Steps

variable {J : Jobs FUT SharedIo OBS ACC} {m m' : ProcMachineImpl W FUT SharedIo} {th th' : Thread W}
  {e : Event W OBS}

theorem Steps.ticked_false (h : Steps J m th (.ticked false) m' th') : Settled m' := by
  generalize he : (Event.ticked false : Event W OBS) = e at h
  cases h with
  | tickEnd call =>
    have halive : m.inner.aliveMask ≠ 0 := by simpa using (Event.ticked.inj he).symm
    exact ⟨by simp,halive⟩
  | _ => cases he

theorem Steps.to_registers (h : Steps J m th e m' th') (hp : th'.pc.registers = true) :
    th.pc.registers = true ∨ e = .ticked false := by
  cases h with
  | wakeFound | wakeLoad | wakeOutside | wakeInside | wakeRetry | wakeFire => exact Or.inl hp
  | lock call => cases call <;> cases hp
  | tickEnd call =>
    revert hp
    cases hdone : decide (m.inner.aliveMask = 0) with
    | false => exact fun _ => Or.inr rfl
    | true => cases call <;> exact Bool.noConfusion
  | unlock call done => cases call <;> cases done <;> first | exact Or.inl rfl | cases hp
  | notify call => cases call <;> cases hp
  | _ => cases hp

theorem not_builds_of_registers {pc : Pc W} (h : pc.registers = true) : pc.builds = false := by
  cases pc with
  | unlock call done => cases call <;> cases done <;> first | rfl | cases h
  | register => rfl
  | idle | locking | critical | tick | notify | ready => cases h

theorem not_outer_of_registers {pc : Pc W} (h : pc.registers = true) : pc.outer = false := by
  cases pc with
  | unlock | register => rfl
  | idle | locking | critical | tick | notify | ready => cases h

/-- How many steps a thread that owes nothing is from the end of its calls. -/
def left (th : Thread W) : ℕ :=
  (match th.pc with | .idle => 0 | _ => 1) +
    (th.wakes.map fun c => match c.2 with | .compareExchange _ => 2 | _ => 1).sum

theorem Thread.finishes (J : Jobs FUT SharedIo OBS ACC) (howe : ¬ th.Owes m.wakeMask) (hc : th.Clean)
    (hp : th.pc.polls = false) (hidle : th ≠ ⟨.idle,[]⟩) : ∃ m' th' e,
      th.next J m .go = some ⟨m',th',e⟩ ∧ (∀ call, e ≠ .called call) ∧ (∀ n, e ≠ .waking n) ∧
        left th' < left th := by
  rcases th with ⟨pc,_ | ⟨⟨n,w⟩,rest⟩⟩
  · cases pc with
    | idle => exact absurd rfl hidle
    | unlock call done =>
      refine ⟨_,_,_,rfl,by simp,by simp,?_⟩
      cases call with
      | new | isDone => cases done <;> exact Nat.zero_lt_one
      | lockRef =>
        cases done with
        | false => exact Nat.zero_lt_one
        | true => exact absurd (owes_of_pc rfl) howe
      | externalPoll cx => cases hp
    | locking | critical | tick | notify => exact absurd (owes_of_pc rfl) howe
    | register | ready => cases hp
  · have hbit : m.wakeMask.getLsbD n = true := by
      rw [← Bool.not_eq_false]
      exact fun hno => howe (Or.inr ⟨_,List.mem_cons_self,Or.inr hno⟩)
    cases w with
    | load =>
      have hfound : m.wakeMask ||| bit n = m.wakeMask := (or_bit_eq_self (by omega) _).mpr hbit
      refine ⟨m,⟨pc,rest⟩,.woke n,?_,by simp,by simp,?_⟩
      · simp only [Thread.next,wake,if_pos hfound]
      · simp [left]
    | compareExchange old =>
      have hstale : ¬ m.wakeMask = old := by
        rintro rfl
        rw [hc n _ List.mem_cons_self] at hbit
        cases hbit
      refine ⟨m,⟨pc,(n,.load) :: rest⟩,.silent,?_,by simp,by simp,?_⟩
      · simp only [Thread.next,wake,if_neg hstale]
      · simp [left]
    | fire => exact absurd (Or.inr ⟨_,List.mem_cons_self,Or.inl rfl⟩) howe

end Steps

variable [DecidableEq Tid] {J : Jobs FUT SharedIo OBS ACC} {poller builder : Tid}
  {s s' : State Tid W FUT SharedIo} {es : List (Tid × Event W OBS)} {w : W}

/-- In the window nothing has been left behind, as long as the external waker has not been fired. -/
def Watches (poller : Tid) (es : List (Tid × Event W OBS)) (s : State Tid W FUT SharedIo) : Prop :=
  (s.thread poller).pc.registers = true → Undisturbed poller es → Covered s

theorem Watches.next {e : Tid × Event W OBS} (hs : Sound s) (ho : Orderly poller s)
    (hf : Fresh es s) (hw : Watches poller es s) (h : Step J poller s e s') :
    Watches poller (es ++ [e]) s' := by
  rcases e with ⟨t,e⟩
  obtain ⟨m,th,hstep,rfl⟩ := h.thread
  intro hpc hund
  rcases unanswered_snoc.mp hund with he | ⟨hold,hfire⟩
  · cases he
    exact Or.inl hstep.ticked_false
  · by_cases hticked : t = poller ∧ e = .ticked false
    · obtain ⟨rfl,rfl⟩ := hticked
      exact Or.inl hstep.ticked_false
    · have hbefore : (s.thread poller).pc.registers = true := by
        by_cases ht : t = poller
        · subst ht
          rw [State.move_self] at hpc
          exact (hstep.to_registers hpc).resolve_right fun he => hticked ⟨rfl,he⟩
        · rwa [State.move_other _ _ _ _ (Ne.symm ht)] at hpc
      have hbuild : (s.thread t).pc.builds = false := by
        by_cases ht : t = poller
        · subst ht
          exact not_builds_of_registers hbefore
        · rw [← Bool.not_eq_true]
          intro hb
          have houter := hf.alone t poller hb (Ne.symm ht)
          rw [not_outer_of_registers hbefore] at houter
          cases houter
      refine (hw hbefore hold).next hs hstep hbuild (fun he => hfire ⟨_,he⟩) fun cx he => ?_
      subst he
      obtain ⟨hth,-,rfl⟩ := hstep.registers
      have ht : t = poller := ho.one t (by rw [hth]; rfl)
      subst ht
      rw [State.move_self] at hpc
      cases hpc

theorem watches_run {futures : Supported FUT} {io : SharedIo}
    (h : Run (Step J poller) (new futures io builder) es s) : Fresh es s ∧ Watches poller es s := by
  induction h with
  | refl => exact ⟨fresh_new futures io builder,fun _ hund => absurd hund (not_unanswered_nil _ _)⟩
  | snoc h hk ih =>
    exact ⟨ih.1.next (sound_run h) hk,ih.2.next (sound_run h) (orderly_run h) ih.1 hk⟩

/-- A waker registered in an undisturbed window is registered where nothing has been left behind. -/
theorem covered_of_undisturbed {futures : Supported FUT} {io : SharedIo} {t : Tid}
    (h : Run (Step J poller) (new futures io builder) es s)
    (hreg : Step J poller s (t,.registered w) s') (hund : Undisturbed poller es) : Covered s := by
  obtain ⟨m,th,hstep,-⟩ := hreg.thread
  obtain ⟨hth,-⟩ := hstep.registers
  have ht : t = poller := (orderly_run h).one t (by rw [hth]; rfl)
  subst ht
  exact (watches_run h).2 (by rw [hth]; rfl) hund

theorem promise_run {futures : Supported FUT} {io : SharedIo}
    (h : Run (Step J poller) (new futures io builder) es s)
    (hund : ∀ pre t w post, es = pre ++ (t,.registered w) :: post → Undisturbed poller pre) :
    Promise es s := by
  induction h with
  | refl => exact fun w hw => absurd hw (not_unanswered_nil _ _)
  | @snoc s s' es e h hk ih =>
    have hpre : ∀ pre t w post, es = pre ++ (t,.registered w) :: post → Undisturbed poller pre := by
      rintro pre t w post rfl
      exact hund pre t w (post ++ [e]) (by simp)
    refine (ih hpre).next (sound_run h) (watches_run h).1 (fun w hw => ?_) hk
    rcases e with ⟨t,e⟩
    subst hw
    exact covered_of_undisturbed h hk (hund es t w [] rfl)

theorem Missed.proceeds (hm : Missed w es s) (J : Jobs FUT SharedIo OBS ACC) (poller : Tid) {t : Tid}
    (ht : s.thread t ≠ ⟨.idle,[]⟩) : ∃ e m th,
      guarded Returning (Step J poller) s (t,e) (s.move t m th) ∧ left th < left (s.thread t) := by
  obtain ⟨howe,hpolls⟩ := hm.idle t
  obtain ⟨m,th,e,hgo,hcall,hwake,hleft⟩ := Thread.finishes J howe (hm.clean t) hpolls ht
  have hcallable : callable poller (t,e) = true := by
    cases e with
    | called call => exact absurd rfl (hcall call)
    | _ => rfl
  refine ⟨e,m,th,⟨⟨hcall,hwake⟩,hcallable,.go,?_⟩,hleft⟩
  simp only [ProcMachine.next,hgo,Option.map_some]

theorem Missed.returns (hm : Missed w es s) (J : Jobs FUT SharedIo OBS ACC) (poller t : Tid) :
    ∃ fs u, Run (guarded Returning (Step J poller)) s fs u ∧ Missed w (es ++ fs) u ∧
      u.thread t = ⟨.idle,[]⟩ ∧ ∀ v, v ≠ t → u.thread v = s.thread v := by
  induction hn : left (s.thread t) using Nat.strong_induction_on generalizing es s with
  | h n ih =>
    by_cases ht : s.thread t = ⟨.idle,[]⟩
    · exact ⟨[],s,Run.refl s,by rwa [List.append_nil],ht,fun _ _ => rfl⟩
    · obtain ⟨e,m,th,hstep,hleft⟩ := hm.proceeds J poller ht
      rw [hn] at hleft
      obtain ⟨fs,u,hrun,hmu,hidle,hsame⟩ := ih _ hleft (hm.next hstep) (by rw [State.move_self])
      refine ⟨(t,e) :: fs,u,(Run.single hstep).trans hrun,?_,hidle,fun v hv => ?_⟩
      · rwa [List.append_assoc] at hmu
      · rw [hsame v hv,State.move_other _ _ _ _ hv]

/-- One thread after the other comes to the end of its calls. -/
theorem Missed.quiesces (hm : Missed w es s) (J : Jobs FUT SharedIo OBS ACC) (poller : Tid)
    (ts : List Tid) (hts : ∀ t, s.thread t ≠ ⟨.idle,[]⟩ → t ∈ ts) :
    ∃ fs u, Run (guarded Returning (Step J poller)) s fs u ∧ Missed w (es ++ fs) u ∧ Quiescent u := by
  induction ts generalizing es s with
  | nil =>
    refine ⟨[],s,Run.refl s,by rwa [List.append_nil],fun t => ?_⟩
    by_contra ht
    cases hts t ht
  | cons t ts ih =>
    obtain ⟨fs,u,hrun,hmu,hidle,hsame⟩ := hm.returns J poller t
    have hrest : ∀ v, u.thread v ≠ ⟨.idle,[]⟩ → v ∈ ts := by
      intro v hv
      have hvt : v ≠ t := by
        rintro rfl
        exact hv hidle
      rw [hsame v hvt] at hv
      exact (List.mem_cons.mp (hts v hv)).resolve_left hvt
    obtain ⟨gs,v,hrun',hmv,hq⟩ := ih hmu hrest
    exact ⟨fs ++ gs,v,hrun.trans hrun',by rwa [← List.append_assoc],hq⟩

theorem busy_mem {futures : Supported FUT} {io : SharedIo}
    (h : Run (Step J poller) (new futures io builder) es s) (t : Tid)
    (ht : s.thread t ≠ ⟨.idle,[]⟩) : t ∈ builder :: es.map Prod.fst := by
  induction h with
  | refl =>
    by_contra hno
    have hne : t ≠ builder := fun he => hno (by simp [he])
    exact ht (by simp [new,hne])
  | @snoc s s' es e h hk ih =>
    rcases e with ⟨u,e⟩
    obtain ⟨m,th,-,rfl⟩ := hk.thread
    by_cases htu : t = u
    · simp [htu]
    · rw [State.move_other _ _ _ _ htu] at ht
      have hmem := ih ht
      simp only [List.mem_cons,List.map_append,List.mem_append] at hmem ⊢
      exact hmem.imp id Or.inl

/-- `external_poll` keeps its promise in every run in which nobody calls `external_waker.wake()`
between the end of its tick and the registration of its waker. Where something is missed, somebody
has, and the calls in progress can return and leave the promise broken. -/
theorem external_poll_window (J : Jobs FUT SharedIo OBS ACC) (poller builder : Tid)
    (futures : Supported FUT) (io : SharedIo) (es : List (Tid × Event W OBS))
    (s : State Tid W FUT SharedIo) (h : Run (Step J poller) (new futures io builder) es s) :
    ((∀ pre t w post, es = pre ++ (t,.registered w) :: post → Undisturbed poller pre) →
      Quiescent s → ∀ w, Awaiting w es → Settled s.machine) ∧
    ∀ t w s', Step J poller s (t,.registered w) s' → ¬ Covered s → ¬ Undisturbed poller es ∧
      ∃ fs u, Run (guarded Returning (Step J poller)) s' fs u ∧ Quiescent u ∧
        Awaiting w (es ++ [(t,.registered w)] ++ fs) ∧ ¬ Settled u.machine := by
  constructor
  · intro hund hq w hw
    exact settled_of_quiescent hq (promise_run h hund w hw).2
  · intro t w s' hreg hc
    obtain ⟨fs,u,hrun,hm,hq⟩ := (missed_of_registered (orderly_run h) hreg hc).quiesces J poller _
      (busy_mem (h.snoc hreg))
    exact ⟨fun hund => hc (covered_of_undisturbed h hreg hund),fs,u,hrun,hq,hm.awaiting,hm.unsettled⟩

theorem undisturbed_pollRun : Undisturbed true pollRun.2 :=
  ⟨pollRun.2.take 9,_,pollRun.2.drop 10,by decide +kernel,rfl,by decide +kernel⟩

/-- The poll that nobody disturbs, and the one that misses a wake. -/
theorem external_poll_window_sleeper : Settled pollEnd.1.machine ∧ ¬ Undisturbed true lostRun.2 := by
  have hquiet : ∀ e ∈ pollRun.2, ∀ w, e.2 ≠ .registered w := by decide +kernel
  constructor
  · have hrun := (exec_get (J := scripts) _).snoc pollEnd_step
    refine (external_poll_window scripts true false sleeper () _ _ hrun).1 ?_ (by decide +kernel) ()
      (unanswered_snoc.mpr (Or.inl rfl))
    intro pre t w post hsplit
    rcases split_snoc hsplit with ⟨rfl,-⟩ | ⟨post',-,hpre⟩
    · exact undisturbed_pollRun
    · exact absurd rfl (hquiet (t,.registered w) (by rw [show pollRun.2 = _ from hpre]; simp) w)
  · exact ((external_poll_window scripts true false sleeper () _ _ (exec_get _)).2 _ _ _ lostEnd_step
      not_covered_lostRun).1

end ProcMachine
end ProcMachines
