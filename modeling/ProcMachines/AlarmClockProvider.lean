import ProcMachines.AlarmClockFires

/-! A provider that sleeps until the deadline it was told does not oversleep an alarm. -/
namespace ProcMachines

open IntrusiveList PartialOrd

namespace AlarmClock

variable {N T W : Type} [DecidableEq N] [DecidableEq W] [PartialOrd T] {c : Watched N T W}
  {F : Rows N} {a : N} {fuel : ℕ} {d : T} {cx : W} {told : Option T}

def Op.ofAlarm : Op N T W → Bool
  | .advance _ | .externalPollNewAlarm _ _ => false
  | _ => true

/-- The provider sleeps with this threshold, and no armed alarm is below it. -/
structure Asleep (cx : W) (told : Option T) (c : Watched N T W) : Prop where
  threshold : c.clock.externalThreshold = told
  waker : c.clock.externalWaker = ⟨some cx⟩
  armed : ∀ a d w, c.armed a = some (d,w) → ∃ t, told = some t ∧ lt d t = false

omit [DecidableEq N] [DecidableEq W] in
theorem wakeProvider_asleep (hw : c.clock.externalThreshold = told)
    (hwaker : c.clock.externalWaker = ⟨some cx⟩)
    (hfired : Wake.provider cx ∉ (ClockAlarm.wakeProvider d c.clock).2) :
    (ClockAlarm.wakeProvider d c.clock).1 = c.clock ∧ ∃ t, told = some t ∧ lt d t = false := by
  subst hw
  unfold ClockAlarm.wakeProvider at *
  cases ht : c.clock.externalThreshold with
  | none => simp [ht,hwaker] at hfired
  | some t =>
    cases hlt : lt d t with
    | true => simp [ht,hlt,hwaker] at hfired
    | false => simp [hlt]

omit [DecidableEq W] in
theorem Asleep.disarm (ha : Asleep cx told c) {op : Op N T W} {r : After N T W (Reply T)}
    (hthreshold : r.self.externalThreshold = c.clock.externalThreshold)
    (hwaker : r.self.externalWaker = c.clock.externalWaker)
    (harms : op.arms c.threshold c.armed r = Function.update c.armed a none) :
    Asleep cx told (c.after op r) where
  threshold := hthreshold.trans ha.threshold
  waker := hwaker.trans ha.waker
  armed b d w hb := by
    have hb' : Function.update c.armed a none b = some (d,w) := by
      rw [← harms]
      exact hb
    by_cases hba : b = a
    · subst hba
      simp at hb'
    · exact ha.armed b d w (by simpa [hba] using hb')

theorem call_asleep (hs : Sound c F) (ha : Asleep cx told c) {op : Op N T W}
    {r : After N T W (Reply T)} (hop : op.ofAlarm = true) (hv : op.Valid c.clock.head c.threshold)
    (hfuel : (F.row c.clock.head).length < fuel) (h : call fuel op c.clock = .ok r)
    (hfired : Wake.provider cx ∉ r.woken) : Asleep cx told (c.after op r) := by
  cases op with
  | new a wakeAt =>
    simp only [call] at h
    obtain ⟨r,hr,rfl⟩ := map_ok h
    obtain ⟨_,_,hr⟩ := bind_ok hr
    cases hr
    exact ha.disarm rfl rfl rfl
  | setAlarm a wakeAt =>
    obtain ⟨r,hr,rfl⟩ := map_ok h
    obtain ⟨_,_,hr⟩ := bind_ok hr
    cases hr
    exact ha.disarm rfl rfl rfl
  | drop a =>
    obtain ⟨r,hr,rfl⟩ := map_ok h
    obtain ⟨_,_,hr⟩ := bind_ok hr
    cases hr
    exact ha.disarm rfl rfl rfl
  | alarmPoll a v =>
    obtain ⟨wakeAt,hw⟩ := Option.ne_none_iff_exists'.mp hv
    obtain ⟨r,hr,rfl⟩ := map_ok h
    cases wakeAt with
    | none =>
      obtain ⟨heap,hpoll,_⟩ := alarmPoll_none hs hw hfuel v
      rw [hpoll] at hr
      cases hr
      exact ha.disarm (a := a) rfl rfl (by simp [Op.arms,reply,hw])
    | some d =>
      cases hge : ge c.clock.time d with
      | true =>
        obtain ⟨heap,hpoll,_⟩ := alarmPoll_ready hs hw hge hfuel v
        rw [hpoll] at hr
        cases hr
        exact ha.disarm rfl rfl rfl
      | false =>
        obtain ⟨heap,et,ew,hprov,hpoll,_⟩ := alarmPoll_pending fuel hs hw hge v
        rw [hpoll] at hr
        cases hr
        obtain ⟨hself,t,ht,hlt⟩ := wakeProvider_asleep ha.threshold ha.waker hfired
        have hframe : (ClockAlarm.wakeProvider d c.clock).1.externalThreshold = et ∧
            (ClockAlarm.wakeProvider d c.clock).1.externalWaker = ew := by
          rw [hprov]
          exact ⟨rfl,rfl⟩
        rw [hself] at hframe
        refine ⟨hframe.1.symm.trans ha.threshold,hframe.2.symm.trans ha.waker,?_⟩
        intro b d' w hb
        by_cases hba : b = a
        · subst hba
          have hd : d' = d := by
            have hb' : some (d,v) = some (d',w) := by
              simpa [Watched.after,Op.arms,reply,hw] using hb
            exact (Prod.mk.inj (Option.some.inj hb')).1.symm
          exact ⟨t,ht,hd ▸ hlt⟩
        · exact ha.armed b d' w (by simpa [Watched.after,Op.arms,reply,hba] using hb)
  | advance t => simp [Op.ofAlarm] at hop
  | externalPollNewAlarm v t => simp [Op.ofAlarm] at hop

theorem run_asleep {ops : List (Op N T W)} (h : Takes fuel c F ops) (ha : Asleep cx told c)
    (hops : ∀ op ∈ ops, op.ofAlarm = true) {c' : Watched N T W} (hrun : run fuel c ops = .ok c')
    {woken : List (Wake N W)} (hwoken : c'.woken = c.woken ++ woken)
    (hfired : Wake.provider cx ∉ woken) : Asleep cx told c' := by
  induction ops generalizing c F woken with
  | nil =>
    obtain rfl : c = c' := Except.ok.inj hrun
    exact ha
  | cons op ops ih =>
    have hroom := h.room
    rw [List.length_cons] at hroom
    obtain ⟨r,F₁,hcall,hnext,_,_,_,h₁⟩ := h.next
    rw [run_cons,hnext] at hrun
    obtain ⟨rest,hrest⟩ := run_woken hrun
    have hsplit : woken = r.woken ++ rest := by
      rw [hwoken,Watched.after,List.append_assoc] at hrest
      exact List.append_cancel_left hrest
    rw [hsplit,List.mem_append,not_or] at hfired
    have ha₁ := call_asleep h.sound ha (hops op (by simp)) h.valid.1 (by omega) hcall hfired.1
    exact ih h₁ ha₁ (fun op h => hops op (List.mem_cons_of_mem _ h)) hrun hrest hfired.2

omit [DecidableEq W] [PartialOrd T] in
theorem arms_advance {threshold : N → Option (Option T)} {armed : N → Option (T × W)}
    {r : After N T W (Reply T)} {t : T} {x : T × W}
    (h : Op.arms threshold armed r (.advance t) a = some x) :
    (¬ ∃ w, Wake.alarm a w ∈ r.woken) ∧ armed a = some x := by
  by_cases hw : r.woken.any (isFor a) = true
  · simp [Op.arms,hw] at h
  · exact ⟨mt any_isFor.mpr hw,by simpa [Op.arms,hw] using h⟩

omit [DecidableEq W] in
/-- What `advance` returns is a lower bound of the deadlines left, and exists if any is. -/
theorem Sound.advance_deadline [LawfulPartialOrd T] (hs : Sound c F)
    (hfuel : (F.row c.clock.head).length < fuel) (t : T) : ∃ r, advance fuel t c.clock = .ok r ∧
      ∀ a d w, (c.after (.advance t) (reply .deadline r)).armed a = some (d,w) →
        ∃ m, r.ret = some m ∧ lt d m = false := by
  obtain ⟨heap,waker,hcall,hrep,hwaker⟩ := hs.advance_exec hfuel t
  refine ⟨_,hcall,fun a d w ha => ?_⟩
  obtain ⟨hsilent,harmed⟩ := @arms_advance _ _ _ _ _ c.threshold _ _ t _ ha
  obtain ⟨hmem,hd,hw⟩ := hs.armed_iff.mp harmed
  have hdue : due (later c.clock.time t) c.clock.val a = false := by
    by_contra hdue
    refine hsilent ⟨w,hs.mem_woken.mpr ⟨a,d,w,rfl,harmed,?_⟩⟩
    simpa [due,hd] using hdue
  exact sift_min hmem hdue hd _

omit [DecidableEq W] in
/-- While the provider sleeps no registered alarm is below what it was told. -/
theorem Asleep.below (ha : Asleep cx told c) (hs : Sound c F) :
    (∀ m, told = some m → ∀ a d, c.clock.registered a = true → c.clock.val a = some d →
      lt d m = false) ∧ (told = none → ∀ a, c.clock.registered a = false) := by
  have hbelow : ∀ a, c.clock.registered a = true →
      ∃ d m, c.clock.val a = some d ∧ told = some m ∧ lt d m = false := by
    intro a hreg
    obtain ⟨d,w,hd,_,harmed,_⟩ := hs.linked a (hs.registered_iff.mp hreg)
    obtain ⟨m,hm,hlt⟩ := ha.armed a d w harmed
    exact ⟨d,m,hd,hm,hlt⟩
  constructor
  · intro m hm a d hreg hd
    obtain ⟨d',m',hd',hm',hlt⟩ := hbelow a hreg
    rw [hd] at hd'
    rw [hm] at hm'
    rw [Option.some.inj hd',Option.some.inj hm']
    exact hlt
  · intro hnone a
    by_contra hreg
    obtain ⟨_,m,_,hm,_⟩ := hbelow a (by simpa using hreg)
    rw [hnone] at hm
    cases hm

/-- The provider calls `advance`, then waits for an alarm below the deadline it was
told. Whatever the alarms' owners do after that, as long as its waker has not been
fired no registered alarm has an earlier deadline, and none is registered at all if it
was told that there is no deadline. -/
theorem provider_never_oversleeps [LawfulPartialOrd T] (head : N) (time : T)
    (ops : List (Op N T W)) (hv : ValidRun head (fun _ => none) ops) (t : T) (cx : W)
    (post : List (Op N T W)) (hpost : ∀ op ∈ post, op.ofAlarm = true)
    (hvpost : ValidRun head (thresholds (fun _ => none) ops) post) (fuel : ℕ)
    (hfuel : ops.length + post.length + 2 ≤ fuel) :
    ∃ c r c₁ c₂ woken, run fuel (.start head time) ops = .ok c ∧
      advance fuel t c.clock = .ok r ∧
      run fuel c [.advance t,.externalPollNewAlarm cx r.ret] = .ok c₁ ∧
      run fuel c₁ post = .ok c₂ ∧ c₂.woken = c₁.woken ++ woken ∧
      (Wake.provider cx ∉ woken →
        (∀ m, r.ret = some m → ∀ a d, c₂.clock.registered a = true → c₂.clock.val a = some d →
          lt d m = false) ∧
        (r.ret = none → ∀ a, c₂.clock.registered a = false)) := by
  obtain ⟨c,F,hrun,hl⟩ := run_sound (start_takes head time hv (show _ ≤ fuel by omega))
  have hs := hl.sound
  have hhead : c.clock.head = head := hl.head
  have hrow : (F.row head).length ≤ 0 + ops.length := hl.length
  have hlen : (F.row c.clock.head).length ≤ ops.length := by
    rw [hhead]
    omega
  obtain ⟨r,hadvance,hdeadline⟩ := hs.advance_deadline (show _ < fuel by omega) t
  have hvcalls : ValidRun c.clock.head c.threshold
      ([.advance t,.externalPollNewAlarm cx r.ret] : List (Op N T W)) := ⟨trivial,trivial,trivial⟩
  obtain ⟨c₁,F₁,hrun₁,hl₁⟩ := run_sound ⟨hs,hvcalls,show _ ≤ fuel by simp; omega⟩
  have hc₁ : c₁ = (c.after (.advance t) (reply .deadline r)).after (.externalPollNewAlarm cx r.ret)
      ⟨{ r.self with externalThreshold := r.ret,
                     externalWaker := r.self.externalWaker.register cx },[],.poll .pending⟩ := by
    have hcalls := hrun₁
    rw [run_cons,next,call,hadvance] at hcalls
    exact (Except.ok.inj hcalls).symm
  have hasleep : Asleep cx r.ret c₁ := by
    subst hc₁
    exact ⟨rfl,WakerRef.register_eq _ _,hdeadline⟩
  have hvpost₁ : ValidRun c₁.clock.head c₁.threshold post := by
    rw [hl₁.head,hl₁.threshold,hhead,hl.threshold]
    exact hvpost
  have hlen₁ : (F₁.row c₁.clock.head).length ≤ (F.row c.clock.head).length + 2 := by
    rw [hl₁.head]
    exact hl₁.length
  have htakes : Takes fuel c₁ F₁ post := ⟨hl₁.sound,hvpost₁,by omega⟩
  obtain ⟨c₂,F₂,hrun₂,hl₂⟩ := run_sound htakes
  obtain ⟨woken,hwoken⟩ := run_woken hrun₂
  refine ⟨c,r,c₁,c₂,woken,hrun,hadvance,hrun₁,hrun₂,hwoken,fun hfired => ?_⟩
  have hend := run_asleep htakes hasleep hpost hrun₂ hwoken hfired
  exact hend.below hl₂.sound

/-- Told 20 while an alarm for 20 waits; re-polling that alarm wakes nobody. -/
theorem provider_never_oversleeps_twenty : ∃ c₂ : Watched ℕ ℕ ℕ,
    run 9 (.start 0 0) [.new 1 (some 20),.alarmPoll 1 7,.advance 5,
      .externalPollNewAlarm 3 (some 20),.alarmPoll 1 8] = .ok c₂ ∧
    ∀ a d, c₂.clock.registered a = true → c₂.clock.val a = some d → lt d 20 = false := by
  obtain ⟨c,r,c₁,c₂,woken,hrun,hadvance,hrun₁,hrun₂,hwoken,hend⟩ := provider_never_oversleeps
    (W := ℕ) 0 (0 : ℕ) [.new 1 (some 20),.alarmPoll 1 7] ⟨⟨by decide,rfl⟩,by simp [Op.Valid,Op.sets],
      trivial⟩ 5 3 [.alarmPoll 1 8] (by simp [Op.ofAlarm])
      ⟨by simp [Op.Valid,Op.sets,thresholds],trivial⟩ 9 (by decide)
  have hret : ((run 9 (Watched.start 0 0) [.new 1 (some (20 : ℕ)),.alarmPoll 1 7]).bind
      fun c : Watched ℕ ℕ ℕ => (advance 9 5 c.clock).map fun r => r.ret) = .ok (some 20) := by rfl
  have hsilent : ((run 9 (Watched.start 0 0) [.new 1 (some (20 : ℕ)),.alarmPoll 1 7,.advance 5,
      .externalPollNewAlarm 3 (some 20),.alarmPoll 1 8]).map
      fun c : Watched ℕ ℕ ℕ => c.woken) = .ok [] := by rfl
  rw [hrun] at hret
  simp only [Except.bind,hadvance] at hret
  have hr : r.ret = some 20 := Except.ok.inj hret
  rw [hr] at hrun₁
  have hall : run 9 (Watched.start 0 0) [.new 1 (some (20 : ℕ)),.alarmPoll 1 7,.advance 5,
      .externalPollNewAlarm 3 (some 20),.alarmPoll 1 8] = .ok c₂ := by
    have hsplit := run_append 9 (Watched.start (W := ℕ) 0 (0 : ℕ))
      [.new 1 (some 20),.alarmPoll 1 7]
      ([.advance 5,.externalPollNewAlarm 3 (some 20)] ++ [.alarmPoll 1 8])
    have hrest := run_append 9 c [.advance 5,.externalPollNewAlarm 3 (some 20)]
      [.alarmPoll 1 8]
    rw [hrun] at hsplit
    rw [hrun₁] at hrest
    exact hsplit.trans (hrest.trans hrun₂)
  rw [hall] at hsilent
  have hnone : c₂.woken = [] := Except.ok.inj hsilent
  have hempty : woken = [] := by
    rw [hnone] at hwoken
    exact (List.append_eq_nil_iff.mp hwoken.symm).2
  exact ⟨c₂,hall,(hend (by simp [hempty])).1 20 hr⟩

end AlarmClock
end ProcMachines
