import ProcMachines.Scheduler

/-! What suspended tasks rely on: if whatever ends what a task sleeps on also wakes the task,
then nobody sleeps in vain while the mutex is free. -/
namespace ProcMachines
namespace Scheduler

open Transition

variable {Tid ι FUT SharedIo OBS ACC H : Type} [LinearOrder ι]

/-- What is noted of the acts of a task in one of its polls. -/
structure Notes (OBS H : Type) where
  blank : H
  note : H → OBS → H

namespace Notes

def trivial : Notes OBS Unit := ⟨(),fun _ _ => ()⟩

variable (N : Notes OBS H)

def advance (g : ι → H) : Event ι OBS → ι → H
  | .poll n => Function.update g n N.blank
  | .act n obs => Function.update g n (N.note (g n) obs)
  | _ => g

def noted (es : List (Tid × Event ι OBS)) : ι → H :=
  es.foldl (fun g e => N.advance g e.2) fun _ => N.blank

theorem noted_append (es fs : List (Tid × Event ι OBS)) :
    N.noted (es ++ fs) = fs.foldl (fun g e => N.advance g e.2) (N.noted es) := by
  simp [noted]

end Notes

/-- The rules by which tasks may sleep. `busy` is what a running task knows of what it has
polled so far, and `asleep` what a suspended one relies on; a poll begins knowing nothing. -/
structure Attends (P : Program ι FUT SharedIo OBS ACC) (N : Notes OBS H) (inv : SharedIo → Prop)
    (fresh : ι → FUT → Prop) (busy asleep : ι → H → FUT → SharedIo → Prop) : Prop where
  begins : ∀ n fut io, inv io → fresh n fut → busy n N.blank fut io
  act : ∀ n fut io io' woken fut' obs, inv io → P.resume n fut io = .act io' woken fut' obs →
    inv io' ∧ (∀ g, busy n g fut io → busy n (N.note g obs) fut' io' ∨ n ∈ woken) ∧
      ∀ k g f, k ≠ n → asleep k g f io → asleep k g f io' ∨ k ∈ woken
  suspend : ∀ n fut io fut', inv io → P.resume n fut io = .suspend fut' →
    fresh n fut' ∧ ∀ g, busy n g fut io → asleep n g fut' io
  access : ∀ acc io, inv io → inv (P.access acc io).1 ∧
    ∀ k g f, asleep k g f io → asleep k g f (P.access acc io).1 ∨ k ∈ (P.access acc io).2

/-- The tasks that a thread inside the mutex will still wake or poll. -/
def Phase.attends (pending : Set ι) : Phase ι → Set ι
  | .critical owed => pending ∪ {k | k ∈ owed}
  | .between => pending
  | .round left => pending ∪ left
  | .running left _ owed => pending ∪ left ∪ {k | k ∈ owed}
  | .leaving => ∅

omit [LinearOrder ι] in
theorem Phase.attends_mono {p q : Set ι} (h : p ⊆ q) (ph : Phase ι) : ph.attends p ⊆ ph.attends q := by
  cases ph with
  | critical owed => exact Set.union_subset_union_left _ h
  | between => exact h
  | round left => exact Set.union_subset_union_left _ h
  | running left n owed =>
    exact Set.union_subset_union_left _ (Set.union_subset_union_left _ h)
  | leaving => exact subset_rfl

namespace State

def attends (s : State Tid ι FUT SharedIo) : Set ι :=
  match s.holder with
  | none => ∅
  | some (_,ph) => ph.attends s.pending

def Runs (s : State Tid ι FUT SharedIo) (n : ι) : Prop :=
  ∃ t left owed, s.holder = some (t,.running left n owed)

end State

section Rest

variable {P : Program ι FUT SharedIo OBS ACC} {N : Notes OBS H} {inv : SharedIo → Prop}
  {fresh : ι → FUT → Prop} {busy asleep : ι → H → FUT → SharedIo → Prop} {g : ι → H}
  {s s' : State Tid ι FUT SharedIo}

omit [LinearOrder ι] in
theorem attends_of_holder {t : Tid} {ph : Phase ι} (h : s.holder = some (t,ph)) :
    s.attends = ph.attends s.pending := by
  simp only [State.attends,h]

omit [LinearOrder ι] in
theorem not_runs {t : Tid} {ph : Phase ι} (h : s.holder = some (t,ph))
    (hph : ∀ left n owed, ph ≠ .running left n owed) (n : ι) : ¬ s.Runs n := by
  rintro ⟨u,left,owed,hu⟩
  rw [h] at hu
  exact hph left n owed (Prod.mk.inj (Option.some.inj hu)).2

omit [LinearOrder ι] in
theorem runs_iff {t : Tid} {left : Set ι} {n k : ι} {owed : List ι}
    (h : s.holder = some (t,.running left n owed)) : s.Runs k ↔ k = n := by
  constructor
  · rintro ⟨u,left',owed',hu⟩
    rw [h] at hu
    cases hu
    rfl
  · rintro rfl
    exact ⟨t,left,owed,h⟩

/-- Every suspended task may rely on what it sleeps on, or is attended to; the running task
knows what it has polled, or will be polled again. -/
structure Attended (inv : SharedIo → Prop) (fresh : ι → FUT → Prop)
    (busy asleep : ι → H → FUT → SharedIo → Prop) (g : ι → H) (s : State Tid ι FUT SharedIo) : Prop where
  inv : inv s.io
  fresh : ∀ n fut, s.task n = some fut → ¬ s.Runs n → fresh n fut
  asleep : ∀ n fut, s.task n = some fut → ¬ s.Runs n → asleep n (g n) fut s.io ∨ n ∈ s.attends
  busy : ∀ t left n owed fut, s.holder = some (t,.running left n owed) → s.task n = some fut →
    busy n (g n) fut s.io ∨ n ∈ s.pending ∨ n ∈ owed

omit [LinearOrder ι] in
theorem Attended.quiet (h : Attended inv fresh busy asleep g s) (htask : s'.task = s.task)
    (hio : s'.io = s.io) (hruns : ∀ n, ¬ s.Runs n) (hruns' : ∀ n, ¬ s'.Runs n)
    (hattends : ∀ n, (s.task n).isSome → n ∈ s.attends → n ∈ s'.attends) :
    Attended inv fresh busy asleep g s' where
  inv := hio ▸ h.inv
  fresh n fut hn _ := h.fresh n fut (htask ▸ hn) (hruns n)
  asleep n fut hn _ := by
    rw [htask] at hn
    rw [hio]
    exact (h.asleep n fut hn (hruns n)).imp id (hattends n (by rw [hn]; rfl))
  busy t left n owed fut hrun := absurd ⟨t,left,owed,hrun⟩ (hruns' n)

omit [LinearOrder ι] in
theorem Attended.woken (h : Attended inv fresh busy asleep g s) (htask : s'.task = s.task)
    (hio : s'.io = s.io) (hattends : s.attends ⊆ s'.attends)
    (hruns : ∀ n, s.Runs n → s'.Runs n)
    (hholder : ∀ t left n owed, s'.holder = some (t,.running left n owed) → ∃ owed₀,
      s.holder = some (t,.running left n owed₀) ∧
        (n ∈ s.pending ∨ n ∈ owed₀ → n ∈ s'.pending ∨ n ∈ owed)) :
    Attended inv fresh busy asleep g s' where
  inv := hio ▸ h.inv
  fresh n fut hn hnot := h.fresh n fut (htask ▸ hn) fun hrun => hnot (hruns n hrun)
  asleep n fut hn hnot := by
    rw [htask] at hn
    rw [hio]
    exact (h.asleep n fut hn fun hrun => hnot (hruns n hrun)).imp id fun hn => hattends hn
  busy t left n owed fut hrun hn := by
    obtain ⟨owed₀,hrun₀,hkeep⟩ := hholder t left n owed hrun
    rw [htask] at hn
    rw [hio]
    exact (h.busy t left n owed₀ fut hrun₀ hn).imp id hkeep

omit [LinearOrder ι] in
theorem mem_insert_or {pending : Set ι} {owed : List ι} {n k : ι}
    (h : k ∈ pending ∨ k ∈ n :: owed) : k ∈ insert n pending ∨ k ∈ owed := by
  rcases h with h | h
  · exact Or.inl (Or.inr h)
  · rcases List.mem_cons.mp h with rfl | h
    · exact Or.inl (Or.inl rfl)
    · exact Or.inr h

theorem Attended.next (hP : Attends P N inv fresh busy asleep)
    (h : Attended inv fresh busy asleep g s) {e : Tid × Option (Event ι OBS)} (hk : Step P s e s') :
    Attended inv fresh busy asleep (e.2.elim g (N.advance g)) s' := by
  cases hk with
  | enter t ph hh hph =>
    have hnot : ∀ n, ¬ s.Runs n := by
      rintro n ⟨u,left,owed,hu⟩
      rw [hh] at hu
      cases hu
    refine h.quiet rfl rfl hnot (not_runs rfl ?_) ?_
    · rintro left n owed rfl
      rcases hph with hph | hph <;> cases hph
    · intro n _ hn
      simp only [State.attends,hh] at hn
      exact hn.elim
  | access t acc hh =>
    obtain ⟨hinv,hkeep⟩ := hP.access acc s.io h.inv
    have hnot := not_runs hh (by simp)
    refine ⟨hinv,fun n fut hn _ => h.fresh n fut hn (hnot n),fun n fut hn _ => ?_,
      fun u left n owed fut hrun => by cases hrun⟩
    rcases h.asleep n fut hn (hnot n) with hsleep | hattend
    · exact (hkeep n (g n) fut hsleep).imp id fun hwoken => Or.inr hwoken
    · rw [attends_of_holder hh] at hattend
      exact Or.inr (Or.inl (hattend.resolve_right (by simp)))
  | release t hh =>
    refine h.quiet rfl rfl (not_runs hh (by simp)) (not_runs rfl (by simp)) fun n _ hn => ?_
    rw [attends_of_holder hh] at hn
    exact hn.resolve_right (by simp)
  | wakeCritical t n owed hh =>
    refine h.quiet rfl rfl (not_runs hh (by simp)) (not_runs rfl (by simp)) fun k _ hk => ?_
    rw [attends_of_holder hh] at hk
    exact mem_insert_or hk
  | wakeRunning t left m n owed hh =>
    refine h.woken rfl rfl ?_ ?_ ?_
    · intro k hk
      rw [attends_of_holder hh] at hk
      rcases hk with (hk | hk) | hk
      · exact Or.inl (Or.inl (Or.inr hk))
      · exact Or.inl (Or.inr hk)
      · exact (mem_insert_or (Or.inr hk)).imp Or.inl id
    · rintro k ⟨u,left',owed',hu⟩
      rw [hh] at hu
      cases hu
      exact ⟨t,left,owed,rfl⟩
    · intro u left' k owed' hu
      cases hu
      exact ⟨n :: owed,hh,mem_insert_or⟩
  | wakeOutside t n hh =>
    refine h.woken rfl rfl ?_ (fun k hk => hk) ?_
    · intro k hk
      simp only [State.attends] at hk ⊢
      cases hholder : s.holder with
      | none =>
        rw [hholder] at hk
        exact hk
      | some held =>
        rw [hholder] at hk
        exact held.2.attends_mono (Set.subset_insert n s.pending) hk
    · intro u left k owed hu
      exact ⟨owed,hu,fun hk => hk.imp (fun hk => Or.inr hk) id⟩
  | claim t hh =>
    refine h.quiet rfl rfl (not_runs hh (by simp)) (not_runs rfl (by simp)) fun n hsome hn => ?_
    rw [attends_of_holder hh] at hn
    exact Or.inr ⟨hn,hsome⟩
  | poll t left n hh hn hleast =>
    have hnot := not_runs hh (by simp)
    refine ⟨h.inv,fun k fut hk _ => h.fresh k fut hk (hnot k),fun k fut hk hkn => ?_,
      fun u left' k owed fut hrun hk => ?_⟩
    · have hne : k ≠ n := by
        rintro rfl
        exact hkn ⟨t,_,_,rfl⟩
      simp only [Option.elim_some,Notes.advance,Function.update_of_ne hne]
      refine (h.asleep k fut hk (hnot k)).imp id fun hattend => ?_
      rw [attends_of_holder hh] at hattend
      exact Or.inl (hattend.imp id fun hleft => ⟨hleft,hne⟩)
    · cases hrun
      simp only [Option.elim_some,Notes.advance,Function.update_self]
      exact Or.inl (hP.begins n fut s.io h.inv (h.fresh n fut hk (hnot n)))
  | act t left n hh hfut hres =>
    obtain ⟨hinv,hbusy,hkeep⟩ := hP.act n _ _ _ _ _ _ h.inv hres
    refine ⟨hinv,fun k fut hk hkn => ?_,fun k fut hk hkn => ?_,fun u left' k owed fut hrun hk => ?_⟩
    · have hne : k ≠ n := fun heq => hkn ((runs_iff rfl).mpr heq)
      exact h.fresh k fut (by simpa [hne] using hk) (mt (runs_iff hh).mp hne)
    · have hne : k ≠ n := fun heq => hkn ((runs_iff rfl).mpr heq)
      simp only [Option.elim_some,Notes.advance,Function.update_of_ne hne]
      rcases h.asleep k fut (by simpa [hne] using hk) (mt (runs_iff hh).mp hne) with hsleep | hattend
      · exact (hkeep k (g k) fut hne hsleep).imp id fun hwoken => Or.inr hwoken
      · rw [attends_of_holder hh] at hattend
        exact Or.inr (Or.inl (hattend.resolve_right (by simp)))
    · cases hrun
      obtain rfl := Option.some.inj ((Function.update_self (f := s.task) ..).symm.trans hk)
      simp only [Option.elim_some,Notes.advance,Function.update_self]
      rcases h.busy t left n [] _ hh hfut with hknows | hpending | hno
      · exact (hbusy (g n) hknows).imp id Or.inr
      · exact Or.inr (Or.inl hpending)
      · cases hno
  | suspend t left n hh hfut hres =>
    obtain ⟨hfresh,hbusy⟩ := hP.suspend n _ s.io _ h.inv hres
    refine ⟨h.inv,fun k fut hk _ => ?_,fun k fut hk _ => ?_,fun u left' k owed fut hrun => by cases hrun⟩
    · by_cases hkn : k = n
      · subst hkn
        obtain rfl := Option.some.inj ((Function.update_self (f := s.task) ..).symm.trans hk)
        exact hfresh
      · exact h.fresh k fut (by simpa [hkn] using hk) (mt (runs_iff hh).mp hkn)
    · by_cases hkn : k = n
      · subst hkn
        obtain rfl := Option.some.inj ((Function.update_self (f := s.task) ..).symm.trans hk)
        rcases h.busy t left k [] _ hh hfut with hknows | hpending | hno
        · exact Or.inl (hbusy (g k) hknows)
        · exact Or.inr (Or.inl hpending)
        · cases hno
      · refine (h.asleep k fut (by simpa [hkn] using hk) (mt (runs_iff hh).mp hkn)).imp id ?_
        intro hattend
        rw [attends_of_holder hh] at hattend
        exact hattend.resolve_right (by simp)
  | finish t left n hh hfut hres =>
    have hne : ∀ k fut, Function.update s.task n none k = some fut → k ≠ n := by
      rintro k fut hk rfl
      simp at hk
    refine ⟨h.inv,fun k fut hk _ => ?_,fun k fut hk _ => ?_,fun u left' k owed fut hrun => by cases hrun⟩
    · have hkn := hne k fut hk
      exact h.fresh k fut (by simpa [hkn] using hk) (mt (runs_iff hh).mp hkn)
    · have hkn := hne k fut hk
      refine (h.asleep k fut (by simpa [hkn] using hk) (mt (runs_iff hh).mp hkn)).imp id ?_
      intro hattend
      rw [attends_of_holder hh] at hattend
      exact hattend.resolve_right (by simp)
  | endRound t hh =>
    refine h.quiet rfl rfl (not_runs hh (by simp)) (not_runs rfl (by simp)) fun n _ hn => ?_
    rw [attends_of_holder hh] at hn
    exact hn.resolve_right (Set.notMem_empty n)
  | tick t done hh hnone hdone =>
    refine h.quiet rfl rfl (not_runs hh (by simp)) (not_runs rfl (by simp)) fun n _ hn => ?_
    rw [attends_of_holder hh,Phase.attends,hnone] at hn
    exact hn.elim
  | leave t hh =>
    refine h.quiet rfl rfl (not_runs hh (by simp)) ?_ fun n _ hn => ?_
    · rintro n ⟨u,left,owed,hu⟩
      cases hu
    · rw [attends_of_holder hh] at hn
      exact hn.elim

/-- Over every run: while the mutex is free, every unfinished task may rely on what it sleeps
on. -/
theorem nobody_sleeps_in_vain (hP : Attends P N inv fresh busy asleep) {task : ι → Option FUT}
    {io : SharedIo} {builder : Tid} (hinv : inv io) (hfresh : ∀ n fut, task n = some fut → fresh n fut)
    {es : List (Tid × Option (Event ι OBS))} (h : Run (Step P) (start task io builder) es s)
    (hfree : s.holder = none) (n : ι) (fut : FUT) (hn : s.task n = some fut) :
    asleep n (N.noted (es.flatMap view) n) fut s.io := by
  have hstart : Attended inv fresh busy asleep (fun _ => N.blank) (start task io builder) := by
    refine ⟨hinv,fun n fut hn _ => hfresh n fut hn,fun n fut hn _ => Or.inr (Or.inr ?_),
      fun t left n owed fut hrun => by cases hrun⟩
    exact (Option.isSome_iff_exists.mpr ⟨fut,hn⟩ : (task n).isSome)
  have hall := h.history (I := fun es s => Attended inv fresh busy asleep (N.noted (es.flatMap view)) s)
    hstart fun es s e s' hs hk => by
      have hnext := hs.next hP hk
      rw [List.flatMap_append,List.flatMap_singleton,Notes.noted_append]
      rcases e with ⟨t,_ | e⟩ <;> exact hnext
  have hruns : ¬ s.Runs n := by
    rintro ⟨t,left,owed,hrun⟩
    rw [hfree] at hrun
    cases hrun
  refine (hall.asleep n fut hn hruns).resolve_right ?_
  simp [State.attends,hfree]

end Rest

end Scheduler
end ProcMachines
