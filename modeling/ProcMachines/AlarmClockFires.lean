import ProcMachines.AlarmClockRuns

/-! Alarms fire exactly when they are due. -/
namespace ProcMachines

open IntrusiveList PartialOrd

namespace AlarmClock

variable {N T W : Type} [DecidableEq N]

def registered (self : AlarmClock N T W) (alarm : N) : Bool :=
  match self.heap alarm with
  | some node => node.isLinked && node.targetNode = some self.head
  | none => false

def Op.resets (a : N) : Op N T W → Bool
  | .new alarm _ | .setAlarm alarm _ | .drop alarm => alarm = a
  | _ => false

variable [DecidableEq W] [PartialOrd T] {c : Watched N T W} {F : Rows N} {a : N} {fuel : ℕ} {d : T}

omit [DecidableEq W] in
theorem Sound.registered_iff (hs : Sound c F) :
    c.clock.registered a = true ↔ a ∈ F.row c.clock.head := by
  unfold registered
  constructor
  · intro h
    split at h
    · rename_i node hnode
      obtain ⟨hlinked,htarget⟩ := Bool.and_eq_true_iff.mp h
      exact (hs.rep.isLinked_iff hnode (by simpa using htarget)).mp hlinked
    · exact Bool.noConfusion h
  · intro hmem
    have htarget := hs.rep.target_of_mem hmem
    rw [← hs.rep.targets] at htarget
    obtain ⟨node,hnode,ht⟩ := Option.map_eq_some_iff.mp htarget
    simp only [hnode,ht,decide_true,Bool.and_true]
    exact (hs.rep.isLinked_iff hnode ht).mpr hmem

omit [DecidableEq W] [PartialOrd T] in
theorem thresholds_of_not_resets {threshold : N → Option (Option T)} {ops : List (Op N T W)}
    (h : ∀ op ∈ ops, op.resets a = false) : thresholds threshold ops a = threshold a := by
  induction ops generalizing threshold with
  | nil => rfl
  | cons op ops ih =>
    have hop : op.sets threshold a = threshold a := by
      have hr := h op (by simp)
      cases op with
      | new b wakeAt =>
        have hb : a ≠ b := fun e => by simp [Op.resets,e] at hr
        simp [Op.sets,hb]
      | setAlarm b wakeAt =>
        have hb : a ≠ b := fun e => by simp [Op.resets,e] at hr
        simp [Op.sets,hb]
      | drop b =>
        have hb : a ≠ b := fun e => by simp [Op.resets,e] at hr
        simp [Op.sets,hb]
      | alarmPoll b cx => rfl
      | advance t => rfl
      | externalPollNewAlarm cx t => rfl
    rw [← hop]
    exact ih fun op hop => h op (List.mem_cons_of_mem _ hop)

omit [PartialOrd T] [DecidableEq N] [DecidableEq W] in
theorem bind_ok {α β : Type} {m : Except Fault α} {k : α → Except Fault β} {b : β}
    (h : (m >>= k) = .ok b) : ∃ x, m = .ok x ∧ k x = .ok b := by
  cases m with
  | error e => cases h
  | ok x => exact ⟨x,rfl,h⟩

omit [PartialOrd T] [DecidableEq N] [DecidableEq W] in
theorem map_ok {α β : Type} {m : Except Fault α} {f : α → β} {b : β}
    (h : m.map f = .ok b) : ∃ x, m = .ok x ∧ f x = b := by
  cases m with
  | error e => cases h
  | ok x => exact ⟨x,rfl,Except.ok.inj h⟩

theorem call_silent {op : Op N T W} {self : AlarmClock N T W} {r : After N T W (Reply T)}
    (hop : ∀ t, op ≠ .advance t) (h : call fuel op self = .ok r) :
    r.self.time = self.time ∧ ∀ a w, Wake.alarm a w ∉ r.woken := by
  cases op with
  | new a wakeAt =>
    simp only [call] at h
    obtain ⟨r,hr,rfl⟩ := map_ok h
    obtain ⟨_,_,hr⟩ := bind_ok hr
    cases hr
    exact ⟨rfl,by simp [reply]⟩
  | alarmPoll a cx =>
    obtain ⟨r,hr,rfl⟩ := map_ok h
    unfold ClockAlarm.alarmPoll at hr
    split at hr
    · obtain ⟨_,_,hr⟩ := bind_ok hr
      cases hr
      exact ⟨rfl,by simp [reply]⟩
    · rename_i d _
      split at hr
      · obtain ⟨_,_,hr⟩ := bind_ok hr
        cases hr
        exact ⟨rfl,by simp [reply]⟩
      · obtain ⟨et,ew,hframe⟩ := wakeProvider_frame d self
        obtain ⟨_,_,hr⟩ := bind_ok hr
        cases hr
        have htime : (ClockAlarm.wakeProvider d self).1.time = self.time := by rw [hframe]
        refine ⟨htime,fun b w hb => ?_⟩
        obtain ⟨v,hv⟩ := wakeProvider_woken d self hb
        cases hv
  | setAlarm a wakeAt =>
    obtain ⟨r,hr,rfl⟩ := map_ok h
    obtain ⟨_,_,hr⟩ := bind_ok hr
    cases hr
    exact ⟨rfl,by simp [reply]⟩
  | drop a =>
    obtain ⟨r,hr,rfl⟩ := map_ok h
    obtain ⟨_,_,hr⟩ := bind_ok hr
    cases hr
    exact ⟨rfl,by simp [reply]⟩
  | advance t => exact absurd rfl (hop t)
  | externalPollNewAlarm cx t =>
    cases h
    exact ⟨rfl,by simp [reply]⟩

omit [DecidableEq W] in
/-- An advance fires the waker of each armed alarm that is due, once, and no other. -/
theorem Sound.advance_wakes [LawfulPartialOrd T] (hs : Sound c F)
    (hfuel : (F.row c.clock.head).length < fuel) (t : T) :
    ∃ r, advance fuel t c.clock = .ok r ∧
      (r.self.time = c.clock.time ∨ gt r.self.time c.clock.time = true) ∧ r.woken.Nodup ∧
      ∀ e, e ∈ r.woken ↔
        ∃ a d w, e = .alarm a w ∧ c.armed a = some (d,w) ∧ le d r.self.time = true := by
  obtain ⟨heap,waker,hcall,_,_⟩ := hs.advance_exec hfuel t
  refine ⟨_,hcall,?_,?_,fun e => ?_⟩
  · simp only [later]
    split
    · rename_i hgt
      exact Or.inr hgt
    · exact Or.inl rfl
  · exact storedWake_nodup ((hs.rep.row _ hs.head).nodup.filter _) _
  · simpa only [← ge_eq_le] using hs.mem_woken

theorem Sound.met (hs : Sound c F) (hfuel : (F.row c.clock.head).length < fuel)
    (hth : c.threshold a = some (some d)) (hge : ge c.clock.time d = true) :
    c.armed a = none ∧
      ∀ cx, ∃ r, ClockAlarm.alarmPoll fuel a cx c.clock = .ok r ∧ r.ret = .ready () := by
  constructor
  · by_contra harmed
    obtain ⟨⟨d',w⟩,harmed⟩ := Option.ne_none_iff_exists'.mp harmed
    obtain ⟨hmem,hd,_⟩ := hs.armed_iff.mp harmed
    have hnot := hs.not_due hmem
    rw [hs.val a _ hth] at hd
    simp [due,hs.val a _ hth,hge] at hnot
  · intro cx
    obtain ⟨heap,hpoll,_⟩ := alarmPoll_ready hs hth hge hfuel cx
    exact ⟨_,hpoll,rfl⟩

omit [DecidableEq W] in
theorem Later.met [LawfulPartialOrd T] {c' : Watched N T W} {F' : Rows N} {post : List (Op N T W)}
    (hl : Later c F post c' F') (hth : c.threshold a = some (some d))
    (hge : ge c.clock.time d = true) (hres : ∀ op ∈ post, op.resets a = false) :
    c'.threshold a = some (some d) ∧ ge c'.clock.time d = true := by
  constructor
  · rw [hl.threshold,thresholds_of_not_resets hres,hth]
  · rcases hl.time with htime | htime
    · rw [htime]
      exact hge
    · exact ge_of_gt htime hge

theorem start_split [LawfulPartialOrd T] (head : N) (time : T) {pre post : List (Op N T W)}
    (hv : ValidRun head (fun _ => none) (pre ++ post)) (hfuel : (pre ++ post).length < fuel)
    {c : Watched N T W} (hrun : run fuel (.start head time) (pre ++ post) = .ok c) :
    ∃ cp Fp F, run fuel (.start head time) pre = .ok cp ∧ Later cp Fp post c F := by
  obtain ⟨hvpre,hvpost⟩ := validRun_append.mp hv
  rw [List.length_append] at hfuel
  obtain ⟨cp,Fp,hrunp,hlp⟩ := run_sound (start_takes (W := W) head time hvpre
    (show _ ≤ fuel by omega))
  have hvp : ValidRun cp.clock.head cp.threshold post := by
    rw [hlp.head,hlp.threshold]
    exact hvpost
  have hlen := hlp.length
  rw [← hlp.head] at hlen
  simp only [List.length_nil,Nat.zero_add] at hlen
  obtain ⟨c',F,hrun',hl⟩ := run_sound ⟨hlp.sound,hvp,show _ ≤ fuel by omega⟩
  have hcc : c' = c := by
    rw [run_append,hrunp] at hrun
    exact Except.ok.inj (hrun'.symm.trans hrun)
  subst hcc
  exact ⟨cp,Fp,F,hrunp,hl⟩

/-- Over every valid run on one clock: no armed alarm is due and no disabled one is in
the list; an advance moves the clock forward or not at all and fires each armed alarm
that is due by then once, through the waker of its last poll, and nothing else; no
other call wakes an alarm; and an alarm whose threshold was met stays disarmed and
answers `Ready` until it is set again. -/
theorem alarms_fire_when_due [LawfulPartialOrd T] (head : N) (time : T) (ops : List (Op N T W))
    (hv : ValidRun head (fun _ => none) ops) (fuel : ℕ) (hfuel : ops.length < fuel) :
    ∃ c, run fuel (.start head time) ops = .ok c ∧
      (∀ a d w, c.armed a = some (d,w) → ge c.clock.time d = false) ∧
      (∀ a, c.clock.registered a = true → c.clock.val a ≠ none) ∧
      (∀ t, ∃ r, advance fuel t c.clock = .ok r ∧
        (r.self.time = c.clock.time ∨ gt r.self.time c.clock.time = true) ∧ r.woken.Nodup ∧
        ∀ e, e ∈ r.woken ↔
          ∃ a d w, e = .alarm a w ∧ c.armed a = some (d,w) ∧ le d r.self.time = true) ∧
      (∀ op r, (∀ t, op ≠ .advance t) → call fuel op c.clock = .ok r →
        r.self.time = c.clock.time ∧ ∀ a w, Wake.alarm a w ∉ r.woken) ∧
      ∀ pre post, ops = pre ++ post → ∃ cp, run fuel (.start head time) pre = .ok cp ∧
        (c.clock.time = cp.clock.time ∨ gt c.clock.time cp.clock.time = true) ∧
        ∀ a d, cp.threshold a = some (some d) → ge cp.clock.time d = true →
          (∀ op ∈ post, op.resets a = false) → c.armed a = none ∧
            ∀ cx, ∃ r, ClockAlarm.alarmPoll fuel a cx c.clock = .ok r ∧ r.ret = .ready () := by
  obtain ⟨c,F,hrun,hs,hlen⟩ := start_keeps (W := W) head time hv hfuel
  refine ⟨c,hrun,?_,?_,hs.advance_wakes hlen,fun op r hop hr => call_silent hop hr,?_⟩
  · intro a d w harmed
    obtain ⟨hmem,hd,_⟩ := hs.armed_iff.mp harmed
    obtain ⟨d',_,hd',_,_,hge⟩ := hs.linked a hmem
    rw [hd] at hd'
    rw [Option.some.inj hd']
    exact hge
  · intro a ha
    obtain ⟨d,_,hd,_⟩ := hs.linked a (hs.registered_iff.mp ha)
    simp [hd]
  · rintro pre post rfl
    obtain ⟨cp,Fp,F',hrunp,hl⟩ := start_split head time hv hfuel hrun
    refine ⟨cp,hrunp,hl.time,fun a d hth hge hres => ?_⟩
    obtain ⟨hth',hge'⟩ := hl.met hth hge hres
    exact hs.met hlen hth' hge'

/-- An alarm set for 10 is polled at 0: advancing to 12 fires its waker. -/
theorem alarms_fire_when_due_at_twelve : ∃ c r,
    run 5 (.start 0 0) [.new 1 (some (10 : ℕ)),.alarmPoll 1 7] = .ok c ∧
      advance 5 12 c.clock = .ok r ∧ Wake.alarm (1 : ℕ) (7 : ℕ) ∈ r.woken := by
  obtain ⟨c,hrun,_,_,hadvance,_⟩ := alarms_fire_when_due (W := ℕ) 0 (0 : ℕ)
    [.new 1 (some 10),.alarmPoll 1 7] ⟨⟨by decide,rfl⟩,by simp [Op.Valid,Op.sets],trivial⟩ 5 (by decide)
  have harmed : (run 5 (Watched.start 0 0) [.new 1 (some (10 : ℕ)),.alarmPoll 1 7]).map
      (fun c : Watched ℕ ℕ ℕ => c.armed 1) = .ok (some (10,7)) := by rfl
  have htime : ((run 5 (Watched.start 0 0) [.new 1 (some (10 : ℕ)),.alarmPoll 1 7]).bind
      fun c : Watched ℕ ℕ ℕ => (advance 5 12 c.clock).map fun r => r.self.time) = .ok 12 := by rfl
  rw [hrun] at harmed htime
  obtain ⟨r,hr,_,_,hwoken⟩ := hadvance 12
  simp only [Except.bind,hr] at htime
  have htwelve : r.self.time = 12 := Except.ok.inj htime
  have hle : le 10 r.self.time = true := by
    rw [htwelve]
    rfl
  exact ⟨c,r,hrun,hr,(hwoken _).mpr ⟨1,10,7,rfl,Except.ok.inj harmed,hle⟩⟩

end AlarmClock
end ProcMachines
