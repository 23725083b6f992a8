import ProcMachines.AlarmClockSweep

/-! Single calls on one clock: what the owners of the alarms know, and the invariant that
ties it to the clock and that every call keeps. -/
namespace ProcMachines

open IntrusiveList PartialOrd

namespace AlarmClock

variable {N T W : Type} [DecidableEq N]

def isFor (a : N) : Wake N W → Bool
  | .alarm b _ => b = a
  | .provider _ => false

/-- A clock with what the owners of its alarms know: the alarms alive with the
threshold last set, which of them are armed and with what waker, and all wakes so far. -/
structure Watched (N T W : Type) where
  clock : AlarmClock N T W
  threshold : N → Option (Option T)
  armed : N → Option (T × W)
  woken : List (Wake N W)

/-- Creating, setting and dropping change an alarm's threshold. -/
def Op.sets (threshold : N → Option (Option T)) : Op N T W → N → Option (Option T)
  | .new alarm wakeAt | .setAlarm alarm wakeAt => Function.update threshold alarm (some wakeAt)
  | .drop alarm => Function.update threshold alarm none
  | _ => threshold

/-- A pending poll arms its alarm, an advance disarms what it wakes. -/
def Op.arms (threshold : N → Option (Option T)) (armed : N → Option (T × W))
    (r : After N T W (Reply T)) : Op N T W → N → Option (T × W)
  | .new alarm _ | .setAlarm alarm _ | .drop alarm => Function.update armed alarm none
  | .alarmPoll alarm cx => Function.update armed alarm
      (match r.ret with
        | .poll .pending => (threshold alarm).join.map fun d => (d,cx)
        | _ => none)
  | .advance _ => fun a => if r.woken.any (isFor a) then none else armed a
  | .externalPollNewAlarm _ _ => armed

/-- Alarms are created at free addresses and used while they live. -/
def Op.Valid (head : N) (threshold : N → Option (Option T)) : Op N T W → Prop
  | .new alarm _ => alarm ≠ head ∧ threshold alarm = none
  | .alarmPoll alarm _ | .setAlarm alarm _ | .drop alarm => threshold alarm ≠ none
  | _ => True

def ValidRun (head : N) (threshold : N → Option (Option T)) : List (Op N T W) → Prop
  | [] => True
  | op :: ops => op.Valid head threshold ∧ ValidRun head (op.sets threshold) ops

variable [DecidableEq W] [PartialOrd T]

def Watched.start (head : N) (time : T) : Watched N T W :=
  ⟨AlarmClock.new head time,fun _ => none,fun _ => none,[]⟩

def Watched.after (c : Watched N T W) (op : Op N T W) (r : After N T W (Reply T)) : Watched N T W :=
  ⟨r.self,op.sets c.threshold,op.arms c.threshold c.armed r,c.woken ++ r.woken⟩

def next (fuel : ℕ) (c : Watched N T W) (op : Op N T W) : Except Fault (Watched N T W) :=
  (call fuel op c.clock).map (c.after op)

def run (fuel : ℕ) (c : Watched N T W) (ops : List (Op N T W)) : Except Fault (Watched N T W) :=
  ops.foldlM (next fuel) c

/-- The list holds exactly the armed alarms, each with its waker stored and not due. -/
structure Sound (c : Watched N T W) (F : Rows N) : Prop where
  rep : Represents c.clock.heap F
  head : F.target c.clock.head = some none
  free : c.threshold c.clock.head = none
  alive : ∀ a, a ≠ c.clock.head → F.target a = (c.threshold a).map fun _ => some c.clock.head
  val : ∀ a d, c.threshold a = some d → c.clock.val a = d
  linked : ∀ a ∈ F.row c.clock.head, ∃ d w, c.clock.val a = some d ∧ c.clock.waker a = some w ∧
    c.armed a = some (d,w) ∧ ge c.clock.time d = false
  unlinked : ∀ a, a ∉ F.row c.clock.head → c.clock.waker a = none ∧ c.armed a = none

variable {c c' : Watched N T W} {F : Rows N} {a : N} {fuel : ℕ} {op : Op N T W} {t d : T} {w cx : W}

omit [DecidableEq W] in
theorem Sound.armed_iff (hs : Sound c F) : c.armed a = some (d,w) ↔
    a ∈ F.row c.clock.head ∧ c.clock.val a = some d ∧ c.clock.waker a = some w := by
  constructor
  · intro ha
    by_cases hmem : a ∈ F.row c.clock.head
    · obtain ⟨d',w',hd,hw,harmed,_⟩ := hs.linked a hmem
      rw [ha] at harmed
      obtain ⟨rfl,rfl⟩ := Prod.mk.inj (Option.some.inj harmed)
      exact ⟨hmem,hd,hw⟩
    · rw [(hs.unlinked a hmem).2] at ha
      simp at ha
  · rintro ⟨hmem,hd,hw⟩
    obtain ⟨d',w',hd',hw',harmed,_⟩ := hs.linked a hmem
    rw [hd] at hd'
    rw [hw] at hw'
    rw [harmed,Option.some.inj hd',Option.some.inj hw']

omit [DecidableEq N] [DecidableEq W] in
theorem Sound.ne_head (hs : Sound c F) (ha : c.threshold a ≠ none) : a ≠ c.clock.head := by
  rintro rfl
  exact ha hs.free

omit [DecidableEq N] [DecidableEq W] in
theorem Sound.target (hs : Sound c F) (ha : c.threshold a ≠ none) :
    F.target a = some (some c.clock.head) := by
  obtain ⟨d,hd⟩ := Option.ne_none_iff_exists'.mp ha
  rw [hs.alive a (hs.ne_head ha),hd]
  rfl

omit [DecidableEq N] [DecidableEq W] in
theorem Sound.not_due (hs : Sound c F) (ha : a ∈ F.row c.clock.head) :
    due c.clock.time c.clock.val a = false := by
  obtain ⟨d,_,hd,_,_,hge⟩ := hs.linked a ha
  simp [due,hd,hge]

theorem setWaker_eq (waker : N → Option W) (a : N) (cx : W) :
    setWaker waker a cx = Function.update waker a (some cx) := by
  unfold setWaker
  split
  · rfl
  · rename_i old hold
    split
    · rename_i heq
      rw [← heq,← hold,Function.update_eq_self]
    · rfl

omit [DecidableEq W] in
theorem Sound.unlink_exec (hs : Sound c F) (ha : c.threshold a ≠ none)
    (hfuel : (F.row c.clock.head).length < fuel) :
    ∃ heap, Exec (unlink fuel c.clock.head a) c.clock.heap () heap ∧
      Represents heap (F.setRow c.clock.head ((F.row c.clock.head).erase a)) := by
  have hne := hs.ne_head ha
  obtain ⟨heap,hexec,hrep,_⟩ := unlink_represents hs.rep hs.head (Or.inr (hs.target ha)) hfuel
  rw [Rows.unlink,if_neg hne] at hrep
  exact ⟨heap,hexec,hrep⟩

def later (time newTime : T) : T := if gt newTime time then newTime else time

omit [DecidableEq W] in
theorem Sound.advance_exec (hs : Sound c F) (hfuel : (F.row c.clock.head).length < fuel) (t : T) :
    ∃ heap waker, advance fuel t c.clock = .ok
      ⟨{ c.clock with heap := heap, time := later c.clock.time t, externalThreshold := none,
                      waker := waker },
        ((F.row c.clock.head).filter (due (later c.clock.time t) c.clock.val)).filterMap
          (storedWake c.clock.waker),
        (sift (sweep (later c.clock.time t) c.clock.val) (F.row c.clock.head)
          ⟨c.clock.waker,[],none⟩).2.minAlarm⟩ ∧
      Represents heap (F.setRow c.clock.head
        ((F.row c.clock.head).filter fun n => !due (later c.clock.time t) c.clock.val n)) ∧
      ∀ a, waker a = if a ∈ F.row c.clock.head ∧ due (later c.clock.time t) c.clock.val a = true
        then none else c.clock.waker a := by
  obtain ⟨heap,hexec,hrep⟩ := filter_represents hs.rep hs.head
    (sweep (later c.clock.time t) c.clock.val) ⟨c.clock.waker,[],none⟩ hfuel
  have hnodup := (hs.rep.row _ hs.head).nodup
  rw [sift_kept] at hrep
  have hwoken : (sift (sweep (later c.clock.time t) c.clock.val) (F.row c.clock.head)
      ⟨c.clock.waker,[],none⟩).2.woken = [] ++ _ := sift_woken hnodup _
  refine ⟨heap,(sift (sweep (later c.clock.time t) c.clock.val) (F.row c.clock.head)
    ⟨c.clock.waker,[],none⟩).2.waker,?_,hrep,fun a => sift_waker _ _ a⟩
  rw [List.nil_append] at hwoken
  rw [← hwoken]
  have hrun : (filter fuel c.clock.head (quiet (sweep (if gt t c.clock.time then t else c.clock.time)
      c.clock.val)) ⟨c.clock.waker,[],none⟩).run c.clock.heap = .ok (_,heap) := hexec
  simp only [advance,hrun]
  rfl

/-- A call that succeeds leaves a sound clock behind and does not turn it back. -/
def Goes (fuel : ℕ) (op : Op N T W) (c : Watched N T W) (F : Rows N) : Prop :=
  ∃ r F', call fuel op c.clock = .ok r ∧ Sound (c.after op r) F' ∧ r.self.head = c.clock.head ∧
    (F'.row c.clock.head).length ≤ (F.row c.clock.head).length + 1 ∧
    (r.self.time = c.clock.time ∨ gt r.self.time c.clock.time = true)

theorem new_goes (hs : Sound c F) {wakeAt : Option T} (ha : a ≠ c.clock.head)
    (hfree : c.threshold a = none) : Goes fuel (.new a wakeAt) c F := by
  have hdead : F.target a = none := by rw [hs.alive a ha,hfree]; rfl
  obtain ⟨heap,hexec,hrep⟩ := create_exec hs.rep hdead (some c.clock.head)
  have hout := hs.rep.not_mem hdead c.clock.head
  refine ⟨⟨{ c.clock with heap := heap, val := Function.update c.clock.val a wakeAt,
                          waker := Function.update c.clock.waker a none },[],.unit⟩,_,?_,
    ⟨hrep,?_,?_,?_,?_,?_,?_⟩,rfl,Nat.le_succ _,Or.inl rfl⟩
  · rw [call,ClockAlarm.new,hexec]
    rfl
  · simpa [Watched.after,ha.symm] using hs.head
  · simpa [Watched.after,Op.sets,ha.symm] using hs.free
  · intro b hb
    by_cases hba : b = a
    · subst hba
      simp [Watched.after,Op.sets]
    · simpa [Watched.after,Op.sets,hba] using hs.alive b hb
  · intro b d hb
    by_cases hba : b = a
    · subst hba
      simpa [Watched.after,Op.sets] using hb
    · have hval := hs.val b d (by simpa [Watched.after,Op.sets,hba] using hb)
      simpa [Watched.after,hba] using hval
  · intro b hb
    have hba : b ≠ a := fun e => hout (e ▸ hb)
    simpa [Watched.after,Op.arms,hba] using hs.linked b hb
  · intro b hb
    by_cases hba : b = a
    · subst hba
      simp [Watched.after,Op.arms]
    · simpa [Watched.after,Op.arms,hba] using hs.unlinked b hb

omit [DecidableEq W] in
theorem Sound.mem_erase (hs : Sound c F) {b : N} :
    b ∈ (F.row c.clock.head).erase a ↔ b ≠ a ∧ b ∈ F.row c.clock.head :=
  ((hs.rep.row _ hs.head).nodup).mem_erase_iff

theorem setAlarm_goes (hs : Sound c F) {wakeAt : Option T} (ha : c.threshold a ≠ none)
    (hfuel : (F.row c.clock.head).length < fuel) : Goes fuel (.setAlarm a wakeAt) c F := by
  obtain ⟨heap,hexec,hrep⟩ := hs.unlink_exec ha hfuel
  have hne := hs.ne_head ha
  refine ⟨⟨{ c.clock with heap := heap, waker := Function.update c.clock.waker a none,
                          val := Function.update c.clock.val a wakeAt },[],.unit⟩,_,?_,
    ⟨hrep,hs.head,?_,?_,?_,?_,?_⟩,rfl,?_,Or.inl rfl⟩
  · rw [call,ClockAlarm.setAlarm,hexec]
    rfl
  · simpa [Watched.after,Op.sets,hne.symm] using hs.free
  · intro b hb
    by_cases hba : b = a
    · subst hba
      simpa [Watched.after,Op.sets,Rows.setRow] using hs.target ha
    · simpa [Watched.after,Op.sets,Rows.setRow,hba] using hs.alive b hb
  · intro b d hb
    by_cases hba : b = a
    · subst hba
      simpa [Watched.after,Op.sets] using hb
    · have hval := hs.val b d (by simpa [Watched.after,Op.sets,hba] using hb)
      simpa [Watched.after,hba] using hval
  · intro b hb
    obtain ⟨hba,hmem⟩ := hs.mem_erase.mp (by simpa [Watched.after,Rows.setRow] using hb)
    simpa [Watched.after,Op.arms,hba] using hs.linked b hmem
  · intro b hb
    by_cases hba : b = a
    · subst hba
      simp [Watched.after,Op.arms]
    · have hmem : b ∉ F.row c.clock.head := fun e =>
        hb (by simpa [Watched.after,Rows.setRow] using hs.mem_erase.mpr ⟨hba,e⟩)
      simpa [Watched.after,Op.arms,hba] using hs.unlinked b hmem
  · simpa [Rows.setRow] using (List.length_erase_le).trans (Nat.le_succ _)

theorem drop_goes (hs : Sound c F) (ha : c.threshold a ≠ none)
    (hfuel : ∀ g, (F.row g).length < fuel) : Goes fuel (.drop a) c F := by
  have hne := hs.ne_head ha
  obtain ⟨heap,hexec,hrep⟩ := drop_leaf hs.rep hs.head (hs.target ha) hfuel
  refine ⟨⟨{ c.clock with heap := heap, waker := Function.update c.clock.waker a none,
                          val := Function.update c.clock.val a none },[],.unit⟩,_,?_,
    ⟨hrep,?_,?_,?_,?_,?_,?_⟩,rfl,?_,Or.inl rfl⟩
  · rw [call,ClockAlarm.drop,hexec]
    rfl
  · simpa [Watched.after,hne.symm] using hs.head
  · simpa [Watched.after,Op.sets,hne.symm] using hs.free
  · intro b hb
    by_cases hba : b = a
    · subst hba
      simp [Watched.after,Op.sets]
    · simpa [Watched.after,Op.sets,hba] using hs.alive b hb
  · intro b d hb
    by_cases hba : b = a
    · subst hba
      simp [Watched.after,Op.sets] at hb
    · have hval := hs.val b d (by simpa [Watched.after,Op.sets,hba] using hb)
      simpa [Watched.after,hba] using hval
  · intro b hb
    obtain ⟨hba,hmem⟩ := hs.mem_erase.mp (by simpa [Watched.after] using hb)
    simpa [Watched.after,Op.arms,hba] using hs.linked b hmem
  · intro b hb
    by_cases hba : b = a
    · subst hba
      simp [Watched.after,Op.arms]
    · have hmem : b ∉ F.row c.clock.head := fun e =>
        hb (by simpa [Watched.after] using hs.mem_erase.mpr ⟨hba,e⟩)
      simpa [Watched.after,Op.arms,hba] using hs.unlinked b hmem
  · simpa using (List.length_erase_le).trans (Nat.le_succ _)

omit [DecidableEq N] [DecidableEq W] in
theorem Sound.row_length (hs : Sound c F) (g : N) :
    (F.row g).length ≤ (F.row c.clock.head).length := by
  apply hs.rep.row_length
  intro k hk
  rw [hs.alive k hk]
  cases c.threshold k <;> simp

omit [DecidableEq N] [DecidableEq W] in
theorem wakeProvider_frame (d : T) (self : AlarmClock N T W) :
    ∃ externalThreshold externalWaker, (ClockAlarm.wakeProvider d self).1 =
      { self with externalThreshold := externalThreshold, externalWaker := externalWaker } := by
  unfold ClockAlarm.wakeProvider
  split
  · split
    · exact ⟨_,_,rfl⟩
    · exact ⟨self.externalThreshold,self.externalWaker,rfl⟩
  · exact ⟨_,_,rfl⟩

omit [DecidableEq N] [DecidableEq W] in
theorem wakeProvider_woken (d : T) (self : AlarmClock N T W) {e : Wake N W}
    (he : e ∈ (ClockAlarm.wakeProvider d self).2) : ∃ w, e = .provider w := by
  unfold ClockAlarm.wakeProvider at he
  split at he
  · split at he
    · obtain ⟨w,_,rfl⟩ := List.mem_map.mp he
      exact ⟨w,rfl⟩
    · simp at he
  · obtain ⟨w,_,rfl⟩ := List.mem_map.mp he
    exact ⟨w,rfl⟩

omit [DecidableEq W] in
theorem Sound.unlinked_poll (hs : Sound c F)
    (hout : a ∉ F.row c.clock.head) {heap : Heap N} {p : Poll Unit}
    (hrep : Represents heap (F.setRow c.clock.head ((F.row c.clock.head).erase a)))
    (hp : p = .pending → (c.threshold a).join = none) :
    Sound (c.after (.alarmPoll a cx) ⟨{ c.clock with heap := heap },[],.poll p⟩)
      (F.setRow c.clock.head ((F.row c.clock.head).erase a)) := by
  rw [List.erase_of_not_mem hout] at *
  have harms : Op.arms c.threshold c.armed
      (⟨{ c.clock with heap := heap },[],.poll p⟩ : After N T W (Reply T)) (.alarmPoll a cx) =
      c.armed := by
    cases p with
    | ready => simpa [Op.arms] using (hs.unlinked a hout).2.symm
    | pending => simpa [Op.arms,hp rfl] using (hs.unlinked a hout).2.symm
  refine ⟨hrep,hs.head,hs.free,hs.alive,hs.val,?_,?_⟩
  · intro b hb
    rw [Watched.after,harms]
    exact hs.linked b (by simpa [Watched.after,Rows.setRow] using hb)
  · intro b hb
    rw [Watched.after,harms]
    exact hs.unlinked b (by simpa [Watched.after,Rows.setRow] using hb)

theorem alarmPoll_none (hs : Sound c F) (ha : c.threshold a = some none)
    (hfuel : (F.row c.clock.head).length < fuel) (cx : W) :
    ∃ heap, ClockAlarm.alarmPoll fuel a cx c.clock =
        .ok ⟨{ c.clock with heap := heap },[],.pending⟩ ∧
      Sound (c.after (.alarmPoll a cx) ⟨{ c.clock with heap := heap },[],.poll .pending⟩)
        (F.setRow c.clock.head ((F.row c.clock.head).erase a)) := by
  have halive : c.threshold a ≠ none := by simp [ha]
  obtain ⟨heap,hexec,hrep⟩ := hs.unlink_exec halive hfuel
  have hv := hs.val a none ha
  have hout : a ∉ F.row c.clock.head := by
    intro hmem
    obtain ⟨d,_,hd,_⟩ := hs.linked a hmem
    rw [hv] at hd
    simp at hd
  refine ⟨heap,?_,hs.unlinked_poll hout hrep fun _ => by simp [ha]⟩
  simp only [ClockAlarm.alarmPoll,hv]
  rw [hexec]
  rfl

theorem alarmPoll_ready (hs : Sound c F) (ha : c.threshold a = some (some d))
    (hge : ge c.clock.time d = true) (hfuel : (F.row c.clock.head).length < fuel) (cx : W) :
    ∃ heap, ClockAlarm.alarmPoll fuel a cx c.clock =
        .ok ⟨{ c.clock with heap := heap },[],.ready ()⟩ ∧
      Sound (c.after (.alarmPoll a cx) ⟨{ c.clock with heap := heap },[],.poll (.ready ())⟩)
        (F.setRow c.clock.head ((F.row c.clock.head).erase a)) := by
  have halive : c.threshold a ≠ none := by simp [ha]
  obtain ⟨heap,hexec,hrep⟩ := hs.unlink_exec halive hfuel
  have hv := hs.val a (some d) ha
  have hout : a ∉ F.row c.clock.head := by
    intro hmem
    have hdue := hs.not_due hmem
    simp [due,hv,hge] at hdue
  refine ⟨heap,?_,hs.unlinked_poll hout hrep fun h => by simp at h⟩
  simp only [ClockAlarm.alarmPoll,hv,hge,if_true]
  rw [hexec]
  rfl

theorem alarmPoll_pending (fuel : ℕ) (hs : Sound c F) (ha : c.threshold a = some (some d))
    (hge : ge c.clock.time d = false) (cx : W) :
    ∃ heap externalThreshold externalWaker, ClockAlarm.wakeProvider d c.clock =
        ({ c.clock with externalThreshold := externalThreshold, externalWaker := externalWaker },
          (ClockAlarm.wakeProvider d c.clock).2) ∧
      ClockAlarm.alarmPoll fuel a cx c.clock = .ok ⟨{ c.clock with
        heap := heap, waker := Function.update c.clock.waker a (some cx),
        externalThreshold := externalThreshold, externalWaker := externalWaker },
        (ClockAlarm.wakeProvider d c.clock).2,.pending⟩ ∧
      Represents heap (F.setRow c.clock.head
        (if a ∈ F.row c.clock.head then F.row c.clock.head else F.row c.clock.head ++ [a])) := by
  have hv := hs.val a (some d) ha
  have halive : c.threshold a ≠ none := by simp [ha]
  obtain ⟨heap,hexec,hrep⟩ := link_represents hs.rep hs.head (hs.target halive)
  obtain ⟨et,ew,hframe⟩ := wakeProvider_frame d c.clock
  refine ⟨heap,et,ew,Prod.ext hframe rfl,?_,hrep⟩
  simp only [ClockAlarm.alarmPoll,hv,hge,hframe,setWaker_eq]
  rw [hexec]
  rfl

theorem alarmPoll_goes (hs : Sound c F) (ha : c.threshold a ≠ none)
    (hfuel : (F.row c.clock.head).length < fuel) (cx : W) : Goes fuel (.alarmPoll a cx) c F := by
  obtain ⟨wakeAt,hw⟩ := Option.ne_none_iff_exists'.mp ha
  have herase : ((F.setRow c.clock.head ((F.row c.clock.head).erase a)).row
      c.clock.head).length ≤ (F.row c.clock.head).length + 1 := by
    simpa [Rows.setRow] using (List.length_erase_le).trans (Nat.le_succ _)
  cases wakeAt with
  | none =>
    obtain ⟨heap,hcall,hs'⟩ := alarmPoll_none hs hw hfuel cx
    exact ⟨_,_,congrArg (Except.map (reply Reply.poll)) hcall,hs',rfl,herase,Or.inl rfl⟩
  | some d =>
    cases hge : ge c.clock.time d with
    | true =>
      obtain ⟨heap,hcall,hs'⟩ := alarmPoll_ready hs hw hge hfuel cx
      exact ⟨_,_,congrArg (Except.map (reply Reply.poll)) hcall,hs',rfl,herase,Or.inl rfl⟩
    | false =>
      obtain ⟨heap,et,ew,_,hcall,hrep⟩ := alarmPoll_pending fuel hs hw hge cx
      have hv := hs.val a (some d) hw
      have hreply := congrArg (Except.map (reply (@Reply.poll T))) hcall
      refine ⟨_,F.setRow c.clock.head (if a ∈ F.row c.clock.head then F.row c.clock.head
        else F.row c.clock.head ++ [a]),hreply,
        ⟨hrep,hs.head,hs.free,hs.alive,hs.val,?_,?_⟩,rfl,?_,Or.inl rfl⟩
      · intro b hb
        by_cases hba : b = a
        · subst hba
          refine ⟨d,cx,hv,?_,?_,hge⟩
          · simp [Watched.after,reply]
          · simp [Watched.after,reply,Op.arms,hw]
        · have hmem : b ∈ F.row c.clock.head := (mem_linked.mp (by
            simpa only [Watched.after,reply,Rows.setRow,Function.update_self] using hb)).resolve_left
              hba
          simpa [Watched.after,reply,Op.arms,hba] using hs.linked b hmem
      · intro b hb
        have hnot : b ∉ (if a ∈ F.row c.clock.head then F.row c.clock.head
            else F.row c.clock.head ++ [a]) := by
          simpa only [Watched.after,reply,Rows.setRow,Function.update_self] using hb
        obtain ⟨hba,hmem⟩ := not_or.mp (mt mem_linked.mpr hnot)
        simpa [Watched.after,reply,Op.arms,hba] using hs.unlinked b hmem
      · simp only [Rows.setRow,Function.update_self]
        exact length_linked

omit [DecidableEq W] [PartialOrd T] in
theorem any_isFor {woken : List (Wake N W)} :
    woken.any (isFor a) = true ↔ ∃ w, Wake.alarm a w ∈ woken := by
  rw [List.any_eq_true]
  constructor
  · rintro ⟨e,he,hfor⟩
    cases e with
    | alarm b w =>
      have hba : b = a := by simpa [isFor] using hfor
      exact ⟨w,hba ▸ he⟩
    | provider w => simp [isFor] at hfor
  · rintro ⟨w,hw⟩
    exact ⟨_,hw,by simp [isFor]⟩

omit [DecidableEq W] in
theorem Sound.mem_woken (hs : Sound c F) {e : Wake N W} {time : T} :
    e ∈ ((F.row c.clock.head).filter (due time c.clock.val)).filterMap
      (storedWake c.clock.waker) ↔
    ∃ a d w, e = .alarm a w ∧ c.armed a = some (d,w) ∧ ge time d = true := by
  rw [List.mem_filterMap]
  constructor
  · rintro ⟨a,ha,he⟩
    obtain ⟨hmem,hdue⟩ := List.mem_filter.mp ha
    obtain ⟨w,hw,rfl⟩ := Option.map_eq_some_iff.mp he
    obtain ⟨d,_,hd,_,_,_⟩ := hs.linked a hmem
    refine ⟨a,d,w,rfl,hs.armed_iff.mpr ⟨hmem,hd,hw⟩,?_⟩
    simpa [due,hd] using hdue
  · rintro ⟨a,d,w,rfl,harmed,hge⟩
    obtain ⟨hmem,hd,hw⟩ := hs.armed_iff.mp harmed
    exact ⟨a,List.mem_filter.mpr ⟨hmem,by simp [due,hd,hge]⟩,by simp [storedWake,hw]⟩

omit [DecidableEq W] in
/-- An advance leaves the alarms that are not due yet in the list. -/
theorem Sound.advance_sound (hs : Sound c F) (hfuel : (F.row c.clock.head).length < fuel) {t : T}
    {r : After N T W (Option T)} (hcall : advance fuel t c.clock = .ok r) :
    Sound (c.after (.advance t) (reply .deadline r)) (F.setRow c.clock.head
      ((F.row c.clock.head).filter fun n => !due (later c.clock.time t) c.clock.val n)) := by
  obtain ⟨heap,waker,hexec,hrep,hwaker⟩ := hs.advance_exec hfuel t
  obtain rfl := Except.ok.inj (hexec.symm.trans hcall)
  refine ⟨hrep,hs.head,hs.free,hs.alive,hs.val,?_,?_⟩
  · intro b hb
    have hb' : b ∈ (F.row c.clock.head).filter
        fun n => !due (later c.clock.time t) c.clock.val n := by
      simpa [Watched.after,reply,Rows.setRow] using hb
    obtain ⟨hmem,hdue⟩ := List.mem_filter.mp hb'
    obtain ⟨d,w,hd,hw,harmed,_⟩ := hs.linked b hmem
    have hdue' : due (later c.clock.time t) c.clock.val b = false := by simpa using hdue
    have hge : ge (later c.clock.time t) d = false := by simpa [due,hd] using hdue'
    have hsilent : ¬ ∃ w, Wake.alarm b w ∈ ((F.row c.clock.head).filter
        (due (later c.clock.time t) c.clock.val)).filterMap (storedWake c.clock.waker) := by
      rintro ⟨v,hv⟩
      obtain ⟨a,d',v',he,harmed',hge'⟩ := hs.mem_woken.mp hv
      obtain ⟨rfl,rfl⟩ := Wake.alarm.inj he
      rw [harmed] at harmed'
      obtain ⟨rfl,_⟩ := Prod.mk.inj (Option.some.inj harmed')
      rw [hge] at hge'
      exact Bool.noConfusion hge'
    refine ⟨d,w,hd,?_,?_,hge⟩
    · simpa [Watched.after,reply,hwaker,hdue'] using hw
    · have hnot := mt any_isFor.mp hsilent
      simp only [Watched.after,reply,Op.arms,hnot]
      exact harmed
  · intro b hb
    have hb' : b ∉ (F.row c.clock.head).filter
        fun n => !due (later c.clock.time t) c.clock.val n := by
      simpa [Watched.after,reply,Rows.setRow] using hb
    by_cases hmem : b ∈ F.row c.clock.head
    · have hdue : due (later c.clock.time t) c.clock.val b = true := by
        by_contra hd
        exact hb' (List.mem_filter.mpr ⟨hmem,by simpa using hd⟩)
      obtain ⟨d,w,hd,hw,harmed,_⟩ := hs.linked b hmem
      have hge : ge (later c.clock.time t) d = true := by simpa [due,hd] using hdue
      have hwoken := any_isFor.mpr ⟨w,hs.mem_woken.mpr ⟨b,d,w,rfl,harmed,hge⟩⟩
      refine ⟨by simp [Watched.after,reply,hwaker,hmem,hdue],?_⟩
      simp only [Watched.after,reply,Op.arms,hwoken,if_true]
    · obtain ⟨hw,harmed⟩ := hs.unlinked b hmem
      refine ⟨by simp [Watched.after,reply,hwaker,hmem,hw],?_⟩
      simp only [Watched.after,reply,Op.arms,harmed,ite_self]

theorem advance_goes (hs : Sound c F) (hfuel : (F.row c.clock.head).length < fuel) (t : T) :
    Goes fuel (.advance t) c F := by
  obtain ⟨heap,waker,hcall,_,_⟩ := hs.advance_exec hfuel t
  refine ⟨_,_,congrArg (Except.map (reply Reply.deadline)) hcall,hs.advance_sound hfuel hcall,
    rfl,?_,?_⟩
  · simpa [Rows.setRow] using (List.length_filter_le _ _).trans (Nat.le_succ _)
  · simp only [reply,later]
    split
    · rename_i hgt
      exact Or.inr hgt
    · exact Or.inl rfl

theorem goes (hs : Sound c F) (hv : op.Valid c.clock.head c.threshold)
    (hfuel : (F.row c.clock.head).length < fuel) : Goes fuel op c F := by
  cases op with
  | new a wakeAt => exact new_goes hs hv.1 hv.2
  | alarmPoll a cx => exact alarmPoll_goes hs hv hfuel cx
  | setAlarm a wakeAt => exact setAlarm_goes hs hv hfuel
  | drop a => exact drop_goes hs hv fun g => (hs.row_length g).trans_lt hfuel
  | advance t => exact advance_goes hs hfuel t
  | externalPollNewAlarm cx t =>
    exact ⟨_,F,rfl,⟨hs.rep,hs.head,hs.free,hs.alive,hs.val,hs.linked,hs.unlinked⟩,rfl,
      Nat.le_succ _,Or.inl rfl⟩

end AlarmClock
end ProcMachines
