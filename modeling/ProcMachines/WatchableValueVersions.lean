import ProcMachines.Transition
import ProcMachines.WatchableValue

/-! A watchable value refines a version counter: being linked stands for having seen the
current version. -/
namespace ProcMachines

open IntrusiveList Transition

/-- The version counter: how often the value was set, and for every live watch the
version and the waker of its last poll or check. -/
structure Versions (N T W : Type) where
  value : T
  version : ℕ
  seen : N → Option (Option (ℕ × W))

namespace Versions

open WatchableValue

variable {N T W : Type} [DecidableEq N]

def start (val : T) : Versions N T W := ⟨val,0,fun _ => none⟩

/-- The watch was never polled or checked, or the value was set since. -/
def stale (s : Versions N T W) (watch : N) : Bool :=
  match (s.seen watch).join with
  | some (version,_) => decide (version < s.version)
  | none => true

/-- A poll or check has seen the current version. -/
def look (s : Versions N T W) (watch : N) (cx : W) : Versions N T W :=
  { s with seen := Function.update s.seen watch (some (some (s.version,cx))) }

def step (s : Versions N T W) : Op N T W → Versions N T W × WatchableValue.Reply T
  | .set val => ({ s with value := val, version := s.version + 1 },.unit)
  | .get => (s,.value s.value)
  | .new watch => ({ s with seen := Function.update s.seen watch (some none) },.unit)
  | .watchPoll watch cx | .poll watch cx =>
    (s.look watch cx,.poll (if s.stale watch then .ready s.value else .pending))
  | .watchCheck watch cx => (s.look watch cx,.value s.value)
  | .drop watch => ({ s with seen := Function.update s.seen watch none },.unit)

/-- A set wakes the live watches that have seen the version it replaces, each through
the waker of its last poll or check; no other call wakes. -/
def Wakes (s : Versions N T W) : Op N T W → N × W → Prop
  | .set _, (watch,cx) => s.seen watch = some (some (s.version,cx))
  | _, _ => False

/-- Watches are created at free addresses and used while they live. -/
def Valid (head : N) (s : Versions N T W) : Op N T W → Prop
  | .new watch => watch ≠ head ∧ s.seen watch = none
  | .watchPoll watch _ | .poll watch _ | .watchCheck watch _ | .drop watch => s.seen watch ≠ none
  | .set _ | .get => True

def ValidRun (head : N) (s : Versions N T W) : List (Op N T W) → Prop
  | [] => True
  | op :: ops => s.Valid head op ∧ ValidRun head (s.step op).1 ops

def run (s : Versions N T W) :
    List (Op N T W) → List (WatchableValue.Reply T × (N × W → Prop))
  | [] => []
  | op :: ops => ((s.step op).2,s.Wakes op) :: (s.step op).1.run ops

def after (s : Versions N T W) (ops : List (Op N T W)) : Versions N T W :=
  ops.foldl (fun s op => (s.step op).1) s

theorem after_snoc (s : Versions N T W) (ops : List (Op N T W)) (op : Op N T W) :
    s.after (ops ++ [op]) = ((s.after ops).step op).1 := by
  simp [after]

def Looks (a : N) (cx : W) (op : Op N T W) : Prop :=
  op = .watchPoll a cx ∨ op = .poll a cx ∨ op = .watchCheck a cx

/-- A set, a call of the watch, its creation or its drop. -/
def Supersedes (a : N) : Op N T W → Prop
  | .set _ => True
  | .get => False
  | .new watch | .watchPoll watch _ | .poll watch _ | .watchCheck watch _ | .drop watch => watch = a

def setTo : Op N T W → Option T
  | .set val => some val
  | _ => none

theorem seen_le (val : T) (ops : List (Op N T W)) {a : N} {v : ℕ} {cx : W}
    (h : ((start val).after ops).seen a = some (some (v,cx))) :
    v ≤ ((start val).after ops).version := by
  induction ops using List.reverseRecOn with
  | nil => simp [after,start] at h
  | append_singleton ops op ih =>
    rw [after_snoc] at h ⊢
    cases op with
    | set val => exact (ih h).trans (Nat.le_succ _)
    | get => exact ih h
    | new b =>
      by_cases hab : a = b
      · simp [step,hab] at h
      · exact ih (by simpa [step,hab] using h)
    | drop b =>
      by_cases hab : a = b
      · simp [step,hab] at h
      · exact ih (by simpa [step,hab] using h)
    | watchPoll b cx' | poll b cx' | watchCheck b cx' =>
      by_cases hab : a = b
      · simp only [step,look,hab,Function.update_self,Option.some.injEq,Prod.mk.injEq] at h
        exact h.1.symm.le
      · exact ih (by simpa [step,look,hab] using h)

theorem seen_current_iff (val : T) (ops : List (Op N T W)) (a : N) (cx : W) :
    ((start val).after ops).seen a = some (some (((start val).after ops).version,cx)) ↔
      Unanswered (Looks a cx) (Supersedes a) ops := by
  induction ops using List.reverseRecOn with
  | nil => simp [after,start]
  | append_singleton ops op ih =>
    rw [after_snoc,unanswered_snoc,← ih]
    cases op with
    | set val =>
      simp only [step,Looks,Supersedes,not_true_eq_false,and_false,or_false,reduceCtorEq,iff_false]
      intro h
      exact absurd (seen_le _ ops h) (by omega)
    | get => simp [step,Looks,Supersedes]
    | new b =>
      by_cases hab : a = b
      · simp [step,Looks,Supersedes,hab]
      · simp [step,Looks,Supersedes,hab,Ne.symm hab]
    | drop b =>
      by_cases hab : a = b
      · simp [step,Looks,Supersedes,hab]
      · simp [step,Looks,Supersedes,hab,Ne.symm hab]
    | watchPoll b cx' | poll b cx' | watchCheck b cx' =>
      by_cases hab : a = b
      · simp [step,look,Looks,Supersedes,hab]
      · simp [step,look,Looks,Supersedes,hab,Ne.symm hab]

theorem stale_iff (val : T) (ops : List (Op N T W)) (a : N) :
    ((start val).after ops).stale a = false ↔
      ∃ cx, Unanswered (Looks a cx) (Supersedes a) ops := by
  simp only [← seen_current_iff val ops]
  unfold stale
  cases hseen : ((start val).after ops).seen a with
  | none => simp
  | some o =>
    cases o with
    | none => simp
    | some vw =>
      obtain ⟨v,cx⟩ := vw
      have hle := seen_le val ops hseen
      simp only [Option.join_some,decide_eq_false_iff_not,Option.some.injEq,Prod.mk.injEq,
        exists_and_left,exists_eq',and_true]
      omega

theorem value_after (val : T) (ops : List (Op N T W)) :
    ((start val).after ops).value = (ops.filterMap setTo).getLast?.getD val := by
  induction ops using List.reverseRecOn with
  | nil => rfl
  | append_singleton ops op ih =>
    rw [after_snoc,List.filterMap_append]
    cases op <;> simp [step,look,setTo,ih]

end Versions

namespace WatchableValue

variable {N T W : Type} [DecidableEq N]

/-- The value returned is the same, and exactly those wakes are fired, at most one for
a watch. -/
def Matches (out : Reply T × List (N × W)) (spec : Reply T × (N × W → Prop)) : Prop :=
  out.1 = spec.1 ∧ (out.2.map Prod.fst).Nodup ∧ ∀ e, e ∈ out.2 ↔ spec.2 e

section Release

variable {l : List N} {a : N}

def storedWake (waker : N → Option W) (n : N) : Option (N × W) := (waker n).map fun w => (n,w)

theorem sift_release_kept (l : List N) (s : (N → Option W) × List (N × W)) :
    (sift release l s).1 = [] := by
  induction l generalizing s with
  | nil => rfl
  | cons n l ih => simp [sift,release,ih]

theorem sift_release_waker (l : List N) (s : (N → Option W) × List (N × W)) (a : N) :
    (sift release l s).2.1 a = if a ∈ l then none else s.1 a := by
  induction l generalizing s with
  | nil => simp [sift]
  | cons n l ih =>
    simp only [sift,release,Bool.false_eq_true,if_false,ih,wake]
    by_cases han : a = n
    · subst han
      simp
    · simp [han]

theorem sift_release_woken (hl : l.Nodup) (s : (N → Option W) × List (N × W)) :
    (sift release l s).2.2 = s.2 ++ l.filterMap (storedWake s.1) := by
  induction l generalizing s with
  | nil => simp [sift]
  | cons n l ih =>
    obtain ⟨hn,hl⟩ := List.nodup_cons.mp hl
    have hcongr : l.filterMap (storedWake (wake s.1 n).1) = l.filterMap (storedWake s.1) := by
      refine List.filterMap_congr fun m hm => ?_
      have hmn : m ≠ n := fun e => hn (e ▸ hm)
      simp [storedWake,wake,hmn]
    simp only [sift,release,Bool.false_eq_true,if_false,ih hl,hcongr]
    cases hw : s.1 n <;> simp [wake,storedWake,hw]

omit [DecidableEq N] in
theorem mem_filterMap_storedWake {waker : N → Option W} {e : N × W} :
    e ∈ l.filterMap (storedWake waker) ↔ e.1 ∈ l ∧ waker e.1 = some e.2 := by
  rw [List.mem_filterMap]
  constructor
  · rintro ⟨n,hn,he⟩
    obtain ⟨w,hw,rfl⟩ := Option.map_eq_some_iff.mp he
    exact ⟨hn,hw⟩
  · rintro ⟨hn,hw⟩
    exact ⟨e.1,hn,by simp [storedWake,hw]⟩

omit [DecidableEq N] in
theorem storedWake_watches (waker : N → Option W) (l : List N) :
    ((l.filterMap (storedWake waker)).map Prod.fst).Sublist l := by
  induction l with
  | nil => simp
  | cons n l ih =>
    cases hw : waker n with
    | none => simpa [storedWake,hw] using ih.cons n
    | some w => simpa [storedWake,hw] using ih.cons_cons n

end Release

variable [DecidableEq W] {c : WatchableValue N T W} {F : Rows N} {s : Versions N T W} {a : N}
  {cx : W} {fuel : ℕ}

theorem setWaker_eq (waker : N → Option W) (a : N) (cx : W) :
    setWaker waker a cx = Function.update waker a (some cx) := by
  unfold setWaker
  split
  · rfl
  · rename_i old hold
    split
    · rename_i heq
      rw [← heq,← hold,Function.update_eq_self]
    · rfl

/-- The list holds exactly the watches that have seen the current version, each with the
waker of its last poll or check stored. -/
structure Simulates (c : WatchableValue N T W) (F : Rows N) (s : Versions N T W) : Prop where
  rep : Represents c.heap F
  head : F.target c.head = some none
  free : s.seen c.head = none
  alive : ∀ a, a ≠ c.head → F.target a = (s.seen a).map fun _ => some c.head
  value : c.value = s.value
  linked : ∀ a ∈ F.row c.head, ∃ w, c.waker a = some w ∧ s.seen a = some (some (s.version,w))
  unlinked : ∀ a, a ∉ F.row c.head →
    c.waker a = none ∧ ∀ v w, s.seen a = some (some (v,w)) → v < s.version

omit [DecidableEq W] [DecidableEq N] in
theorem Simulates.ne_head (h : Simulates c F s) (ha : s.seen a ≠ none) : a ≠ c.head := by
  rintro rfl
  exact ha h.free

omit [DecidableEq W] [DecidableEq N] in
theorem Simulates.target (h : Simulates c F s) (ha : s.seen a ≠ none) :
    F.target a = some (some c.head) := by
  obtain ⟨o,ho⟩ := Option.ne_none_iff_exists'.mp ha
  rw [h.alive a (h.ne_head ha),ho]
  rfl

omit [DecidableEq W] in
theorem Simulates.mem_iff (h : Simulates c F s) : a ∈ F.row c.head ↔ s.stale a = false := by
  constructor
  · intro hmem
    obtain ⟨w,_,hseen⟩ := h.linked a hmem
    simp [Versions.stale,hseen]
  · intro hstale
    by_contra hmem
    unfold Versions.stale at hstale
    cases hseen : (s.seen a).join with
    | none => simp [hseen] at hstale
    | some vw =>
      obtain ⟨v,w⟩ := vw
      have hlt := (h.unlinked a hmem).2 v w (Option.join_eq_some_iff.mp hseen)
      simp [hseen,hlt] at hstale

/-- A call that succeeds, answers and wakes as the version counter does and keeps the
simulation. -/
def Goes (fuel : ℕ) (op : Op N T W) (c : WatchableValue N T W) (F : Rows N)
    (s : Versions N T W) : Prop :=
  ∃ r F', call fuel op c = .ok r ∧ Matches (r.ret,r.woken) ((s.step op).2,s.Wakes op) ∧
    Simulates r.self F' (s.step op).1 ∧ r.self.head = c.head ∧
    (F'.row c.head).length ≤ (F.row c.head).length + 1

omit [DecidableEq N] [DecidableEq W] in
theorem Simulates.lockHead (h : Simulates c F s) (ha : s.seen a ≠ none) :
    Exec (lockHead a) c.heap c.head c.heap :=
  lockHead_exec (h.target ha) h.head h.rep

omit [DecidableEq N] [DecidableEq W] in
theorem Simulates.lockSelf (h : Simulates c F s) :
    Exec (IntrusiveList.lockHead c.head) c.heap c.head c.heap :=
  lockHead_exec (t := none) h.head h.head h.rep

theorem get_goes (h : Simulates c F s) : Goes fuel .get c F s := by
  refine ⟨⟨c,[],.value c.value⟩,F,?_,?_,h,rfl,Nat.le_succ _⟩
  · rw [call,get,h.lockSelf]
    rfl
  · exact ⟨congrArg Reply.value h.value,List.nodup_nil,by simp [Versions.Wakes]⟩

theorem set_goes (h : Simulates c F s) (hfuel : (F.row c.head).length < fuel) (val : T) :
    Goes fuel (.set val) c F s := by
  obtain ⟨heap,hexec,hrep⟩ := filter_represents h.rep h.head release (c.waker,[]) hfuel
  have hnodup := (h.rep.row _ h.head).nodup
  have hwoken : (sift release (F.row c.head) (c.waker,[])).2.2 =
      [] ++ (F.row c.head).filterMap (storedWake c.waker) := sift_release_woken hnodup _
  rw [sift_release_kept] at hrep
  refine ⟨⟨{ c with heap := heap, value := val,
                    waker := (sift release (F.row c.head) (c.waker,[])).2.1 },
      (sift release (F.row c.head) (c.waker,[])).2.2,.unit⟩,F.setRow c.head [],?_,⟨rfl,?_,?_⟩,
    ⟨hrep,h.head,h.free,h.alive,rfl,?_,?_⟩,rfl,?_⟩
  · rw [call,set,h.lockSelf.bind hexec]
    rfl
  · rw [hwoken]
    simpa using (storedWake_watches c.waker (F.row c.head)).nodup hnodup
  · intro e
    rw [hwoken,List.nil_append,mem_filterMap_storedWake]
    constructor
    · rintro ⟨hmem,hw⟩
      obtain ⟨w,hw',hseen⟩ := h.linked _ hmem
      rw [hw] at hw'
      rw [← Option.some.inj hw'] at hseen
      exact hseen
    · intro hseen
      have hmem : e.1 ∈ F.row c.head := h.mem_iff.mpr (by
        simp [Versions.stale,show s.seen e.1 = _ from hseen])
      obtain ⟨w,hw,hseen'⟩ := h.linked _ hmem
      rw [show s.seen e.1 = _ from hseen] at hseen'
      simp only [Option.some.injEq,Prod.mk.injEq,true_and] at hseen'
      exact ⟨hmem,by rw [hw,hseen']⟩
  · simp [Rows.setRow]
  · intro b _
    change (sift release (F.row c.head) (c.waker,[])).2.1 b = none ∧
      ∀ v w, s.seen b = some (some (v,w)) → v < s.version + 1
    rw [sift_release_waker]
    by_cases hb : b ∈ F.row c.head
    · obtain ⟨w,_,hseen⟩ := h.linked b hb
      refine ⟨by simp [hb],fun v w' hv => ?_⟩
      rw [hseen] at hv
      obtain ⟨rfl,_⟩ := Prod.mk.inj (Option.some.inj (Option.some.inj hv))
      exact Nat.lt_succ_self _
    · obtain ⟨hw,hlt⟩ := h.unlinked b hb
      refine ⟨by simp [hb,hw],fun v w' hv => ?_⟩
      exact (hlt v w' hv).trans (Nat.lt_succ_self _)
  · simp [Rows.setRow]

theorem new_goes (h : Simulates c F s) (hne : a ≠ c.head) (hfree : s.seen a = none) :
    Goes fuel (.new a) c F s := by
  have hdead : F.target a = none := by rw [h.alive a hne,hfree]; rfl
  obtain ⟨heap,hexec,hrep⟩ := create_exec h.rep hdead (some c.head)
  have hout := h.rep.not_mem hdead c.head
  refine ⟨⟨{ c with heap := heap, waker := Function.update c.waker a none },[],.unit⟩,_,?_,
    ⟨rfl,List.nodup_nil,by simp [Versions.Wakes]⟩,⟨hrep,?_,?_,?_,h.value,?_,?_⟩,rfl,Nat.le_succ _⟩
  · rw [call,ValueWatch.new,hexec]
    rfl
  · simpa [hne.symm] using h.head
  · simpa [Versions.step,hne.symm] using h.free
  · intro b hb
    by_cases hba : b = a
    · subst hba
      simp [Versions.step]
    · simpa [Versions.step,hba] using h.alive b hb
  · intro b hb
    have hba : b ≠ a := fun e => hout (e ▸ hb)
    simpa [Versions.step,hba] using h.linked b hb
  · intro b hb
    by_cases hba : b = a
    · subst hba
      simp [Versions.step]
    · simpa [Versions.step,hba] using h.unlinked b hb

/-- Linking a watch and storing its waker is having seen the current version. -/
theorem Simulates.look (h : Simulates c F s) (ha : s.seen a ≠ none) (cx : W) :
    ∃ heap F', Exec (link c.head a) c.heap () heap ∧
      Simulates { c with heap := heap, waker := setWaker c.waker a cx } F' (s.look a cx) ∧
      (F'.row c.head).length ≤ (F.row c.head).length + 1 := by
  have hne := h.ne_head ha
  obtain ⟨heap,hexec,hrep⟩ := link_represents h.rep h.head (h.target ha)
  refine ⟨heap,_,hexec,⟨hrep,h.head,?_,?_,h.value,?_,?_⟩,?_⟩
  · simpa [Versions.look,hne.symm] using h.free
  · intro b hb
    by_cases hba : b = a
    · subst hba
      simpa [Versions.look,Rows.setRow] using h.target ha
    · simpa [Versions.look,Rows.setRow,hba] using h.alive b hb
  · intro b hb
    rw [setWaker_eq]
    by_cases hba : b = a
    · subst hba
      simp [Versions.look]
    · have hold : b ∈ F.row c.head :=
        (mem_linked.mp (by simpa only [Rows.setRow,Function.update_self] using hb)).resolve_left hba
      simpa [Versions.look,hba] using h.linked b hold
  · intro b hb
    have hnot : b ∉ (if a ∈ F.row c.head then F.row c.head else F.row c.head ++ [a]) := by
      simpa only [Rows.setRow,Function.update_self] using hb
    obtain ⟨hba,hold⟩ := not_or.mp (mt mem_linked.mpr hnot)
    rw [setWaker_eq]
    simpa [Versions.look,hba] using h.unlinked b hold
  · simp only [Rows.setRow,Function.update_self]
    exact length_linked

theorem watchCheck_goes (h : Simulates c F s) (ha : s.seen a ≠ none) (cx : W) :
    Goes fuel (.watchCheck a cx) c F s := by
  obtain ⟨heap,F',hexec,hsim,hlen⟩ := h.look ha cx
  refine ⟨⟨{ c with heap := heap, waker := setWaker c.waker a cx },[],.value c.value⟩,F',?_,
    ⟨congrArg Reply.value h.value,List.nodup_nil,by simp [Versions.Wakes]⟩,hsim,rfl,hlen⟩
  rw [call,ValueWatch.watchCheck,(h.lockHead ha).bind hexec]
  rfl

theorem watchPoll_exec (h : Simulates c F s) (ha : s.seen a ≠ none) (cx : W) :
    ∃ heap F', ValueWatch.watchPoll a cx c = .ok
        ⟨{ c with heap := heap, waker := setWaker c.waker a cx },[],
          if s.stale a then .ready s.value else .pending⟩ ∧
      Simulates { c with heap := heap, waker := setWaker c.waker a cx } F' (s.look a cx) ∧
      (F'.row c.head).length ≤ (F.row c.head).length + 1 := by
  obtain ⟨heap,F',hexec,hsim,hlen⟩ := h.look ha cx
  have htarget := h.target ha
  rw [← h.rep.targets] at htarget
  obtain ⟨node,hnode,ht⟩ := Option.map_eq_some_iff.mp htarget
  have hready : node.isLinked = !s.stale a := by
    rw [Bool.eq_iff_iff,h.rep.isLinked_iff hnode ht,h.mem_iff]
    simp
  have hread : Exec (IntrusiveList.read a) c.heap node c.heap := by
    simp only [Exec,IntrusiveList.read,StateT.run_bind,StateT.run_get,pure_bind,hnode]
    rfl
  refine ⟨heap,F',?_,hsim,hlen⟩
  rw [ValueWatch.watchPoll,(h.lockHead ha).bind (hread.bind (hexec.bind (pure_exec (!node.isLinked) _)))]
  simp only [hready,Bool.not_not,h.value]
  rfl

theorem drop_goes (h : Simulates c F s) (ha : s.seen a ≠ none)
    (hfuel : ∀ g, (F.row g).length < fuel) : Goes fuel (.drop a) c F s := by
  have hne := h.ne_head ha
  obtain ⟨heap,hexec,hrep⟩ := drop_leaf h.rep h.head (h.target ha) hfuel
  have hmem : ∀ b, b ∈ (F.row c.head).erase a ↔ b ≠ a ∧ b ∈ F.row c.head := fun b =>
    (h.rep.row _ h.head).nodup.mem_erase_iff
  refine ⟨⟨{ c with heap := heap, waker := Function.update c.waker a none },[],.unit⟩,_,?_,
    ⟨rfl,List.nodup_nil,by simp [Versions.Wakes]⟩,⟨hrep,?_,?_,?_,h.value,?_,?_⟩,rfl,?_⟩
  · rw [call,ValueWatch.drop,hexec]
    rfl
  · simpa [hne.symm] using h.head
  · simpa [Versions.step,hne.symm] using h.free
  · intro b hb
    by_cases hba : b = a
    · subst hba
      simp [Versions.step]
    · simpa [Versions.step,hba] using h.alive b hb
  · intro b hb
    obtain ⟨hba,hold⟩ := (hmem b).mp (by simpa using hb)
    simpa [Versions.step,hba] using h.linked b hold
  · intro b hb
    by_cases hba : b = a
    · subst hba
      simp [Versions.step]
    · have hold : b ∉ F.row c.head := fun e => hb (by simpa using (hmem b).mpr ⟨hba,e⟩)
      simpa [Versions.step,hba] using h.unlinked b hold
  · simpa using (List.length_erase_le).trans (Nat.le_succ _)

omit [DecidableEq N] [DecidableEq W] in
theorem Simulates.row_length (h : Simulates c F s) (g : N) :
    (F.row g).length ≤ (F.row c.head).length := by
  apply h.rep.row_length
  intro k hk
  rw [h.alive k hk]
  cases s.seen k <;> simp

/-- Every valid call goes as the version counter says. -/
theorem goes (h : Simulates c F s) {op : Op N T W} (hv : s.Valid c.head op)
    (hfuel : (F.row c.head).length < fuel) : Goes fuel op c F s := by
  cases op with
  | set val => exact set_goes h hfuel val
  | get => exact get_goes h
  | new a => exact new_goes h hv.1 hv.2
  | watchPoll a cx =>
    obtain ⟨heap,F',hpoll,hsim,hlen⟩ := watchPoll_exec h hv cx
    exact ⟨_,F',congrArg (Except.map (reply Reply.poll)) hpoll,
      ⟨rfl,List.nodup_nil,by simp [reply,Versions.Wakes]⟩,hsim,rfl,hlen⟩
  | poll a cx =>
    obtain ⟨heap,F',hpoll,hsim,hlen⟩ := watchPoll_exec h hv cx
    exact ⟨_,F',congrArg (Except.map (reply Reply.poll)) hpoll,
      ⟨rfl,List.nodup_nil,by simp [reply,Versions.Wakes]⟩,hsim,rfl,hlen⟩
  | watchCheck a cx => exact watchCheck_goes h hv cx
  | drop a => exact drop_goes h hv fun g => (h.row_length g).trans_lt hfuel

/-- Every valid run succeeds and matches the version counter call by call. -/
theorem run_matches (h : Simulates c F s) {ops : List (Op N T W)} (hv : s.ValidRun c.head ops)
    (hfuel : (F.row c.head).length + ops.length ≤ fuel) :
    ∃ c' outs, run fuel c ops = .ok (c',outs) ∧ List.Forall₂ Matches outs (s.run ops) := by
  induction ops generalizing c F s with
  | nil => exact ⟨c,[],rfl,List.Forall₂.nil⟩
  | cons op ops ih =>
    rw [List.length_cons] at hfuel
    obtain ⟨r,F',hcall,hmatch,hsim,hhead,hlen⟩ := goes h hv.1 (show _ < fuel by omega)
    obtain ⟨c',outs,hrun,hall⟩ := ih hsim (by rw [hhead]; exact hv.2) (by rw [hhead]; omega)
    refine ⟨c',(r.ret,r.woken) :: outs,?_,List.Forall₂.cons hmatch hall⟩
    rw [run,hcall]
    change (run fuel r.self ops >>= fun x => .ok (x.1,(r.ret,r.woken) :: x.2)) = _
    rw [hrun]
    rfl

omit [DecidableEq W] in
theorem start_simulates (head : N) (val : T) :
    Simulates (new head val : WatchableValue N T W)
      ⟨Function.update (fun _ => none) head (some none),fun _ => []⟩ (Versions.start val) := by
  refine ⟨represents_head head,by simp [new],rfl,?_,rfl,by simp,?_⟩
  · intro a ha
    have hah : a ≠ head := ha
    simp [hah,Versions.start]
  · intro a _
    exact ⟨rfl,by simp [Versions.start]⟩

/-- Over every run of valid calls on one value and any number of watches: each call
answers and wakes as the version counter does. There a poll or check gets the value last
set, a poll is pending exactly when the watch was polled or checked before and the value
has not been set since, and a set wakes exactly the watches polled or checked since the
last one, through the waker of their last poll or check. -/
theorem watches_refine_versions (head : N) (val : T) (ops : List (Op N T W))
    (hv : (Versions.start val).ValidRun head ops) (fuel : ℕ) (hfuel : ops.length < fuel) :
    (∃ c outs, run fuel (new head val) ops = .ok (c,outs) ∧
      List.Forall₂ Matches outs ((Versions.start val).run ops)) ∧
    ∀ pre, pre <+: ops →
      ((Versions.start val).after pre).value = (pre.filterMap Versions.setTo).getLast?.getD val ∧
      (∀ a, ((Versions.start val).after pre).stale a = false ↔
        ∃ cx, Unanswered (Versions.Looks a cx) (Versions.Supersedes a) pre) ∧
      ∀ v a cx, ((Versions.start val).after pre).Wakes (.set v) (a,cx) ↔
        Unanswered (Versions.Looks a cx) (Versions.Supersedes a) pre := by
  constructor
  · exact run_matches (start_simulates head val) hv (by simpa using hfuel.le)
  · intro pre _
    exact ⟨Versions.value_after val pre,Versions.stale_iff val pre,
      fun v a cx => Versions.seen_current_iff val pre a cx⟩

def sampleRun : List (Op ℕ ℕ ℕ) :=
  [.new 1,.new 2,.watchPoll 1 7,.watchCheck 2 8,.poll 1 9,.set 5,.watchPoll 1 7,.drop 1,.set 6]

theorem watches_refine_versions_sampleRun : ∃ c outs, run 10 (new 0 4) sampleRun = .ok (c,outs) ∧
    List.Forall₂ Matches outs ((Versions.start 4).run sampleRun) := by
  have hv : (Versions.start 4).ValidRun 0 sampleRun := by
    simp [sampleRun,Versions.ValidRun,Versions.Valid,Versions.step,Versions.start,Versions.look]
  exact (watches_refine_versions (W := ℕ) 0 4 sampleRun hv 10 (by decide)).1

end WatchableValue
end ProcMachines
