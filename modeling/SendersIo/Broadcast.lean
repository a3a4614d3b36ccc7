import SendersIo.Channel

/-!
`notify_all` of a channel. The mutex goes on when the loop over the observers has ended, and does
not wait for the items that the loop spawned: `scope_.on_empty()` only delays the completion of
`notify_all`. An item that stops takes its observer out of the list while the loop may still be
at this observer, and the link that the loop follows next is that of an observer that was taken
out. The loop relies on the items of the turns before it to have completed, which is so for a
notifier that waits for one `notify_all` before it starts the next.
-/
namespace SendersIo.Broadcast
open SendersIo.Interleaving SendersIo.IntrusiveLists SendersIo.LinkedLists
open SendersIo.Channel (Context Party Instr Event Action RemovedOnce)

/-- The channel, with the action whose turn it is or was last, and for the last turn of `notify_all`
    how many items had been spawned when it began, and the observers that were in the list then. -/
structure Turn where
  context : Context
  action : Option Action
  mark : Nat
  audience : List Nat

/-- The observers of the items that were spawned since the last turn of `notify_all` began. -/
def Turn.sent (s : Turn) : List Nat := s.context.spawned.drop s.mark

def exec (p : Party) (i : Instr) (s : Turn) : List (Turn × List Instr) :=
  (Channel.exec p i s.context).map fun (context,new) => ({ s with context },new)

/-- The turn of an action begins. -/
def Turn.take (s : Turn) (a : Option Action) : Turn :=
  if a = some .notifyAll then ⟨s.context,a,s.context.spawned.length,s.context.members⟩ else { s with action := a }

def accept (e : Event) (s : Turn) : Option (Turn × List Instr) :=
  (Channel.accept e s.context).map fun (context,prog) =>
    match e with
    | .drain => ({ s.take s.context.queue.head? with context },prog)
    | _ => ({ s with context },prog)

def machine : Machine Party Turn Instr Event where
  exec := exec
  accept := accept
  party := Channel.machine.party

def initial : Config Party Turn Instr := ⟨⟨Channel.initial.shared,none,0,[]⟩,fun _ => []⟩

/-- The channel with what its parties have left. -/
def contexts (c : Config Party Turn Instr) : Config Party Context Instr := ⟨c.shared.context,c.threads⟩

/-- The items of the turns before have completed when a turn of `notify_all` begins. -/
def Awaited (c : Config Party Turn Instr) : Label Party Event → Prop
  | .call .drain => c.shared.context.queue.head? = some .notifyAll → ∀ k, c.threads (.item k) = []
  | .call (.itemStops k) => c.shared.mark ≤ k
  | _ => True

/-- Each observer is taken out for one reason, and each `notify_all` waits for the one before. -/
def OneByOne (c : Config Party Turn Instr) (l : Label Party Event) : Prop :=
  RemovedOnce (contexts c) l ∧ Awaited c l

variable {c c' : Config Party Turn Instr} {s s' : Turn} {t t' : Context} {p q : Party} {i : Instr} {e : Event}
  {new rest prog : List Instr} {later : List Nat} {x y : Nat} {links : Links}

/-! ### The turns of a channel -/

/-- What the loop over the observers does not notice. -/
structure Frame (t t' : Context) : Prop where
  links : t'.links = t.links
  pushed : t'.pushed = t.pushed
  spawned : t'.spawned = t.spawned
  removed : ∀ x, (t'.subs x).removed = (t.subs x).removed

theorem Frame.members (frame : Frame t t') : t'.members = t.members := by
  rw [Context.members,Context.members,frame.pushed]
  exact List.filter_congr fun x _ => by rw [frame.removed]

theorem frame_modify {d : Channel.Subscription} (same : d.removed = (t.subs x).removed) : Frame t (t.modify x d) := by
  refine ⟨rfl,rfl,rfl,fun y => ?_⟩
  by_cases here : y = x
  · subst here
    simpa using same
  · simp [Function.update_of_ne here]

/-- The instructions that neither change the list nor follow it. -/
def Quiet : Instr → Prop
  | .pushBack _ | .erase _ | .closeFront | .notifyAll | .notifyFrom _ | .notifyNext _ => False
  | _ => True

/-- The instructions of the loop. -/
def Loop : Instr → Prop
  | .notifyAll | .notifyFrom _ | .notifyNext _ => True
  | _ => False

theorem exec_notifyFrom (t : Context) (real : x ≠ 0) :
    Channel.exec p (.notifyFrom x) t = [({ t with spawned := t.spawned ++ [x] },[.notifyNext x])] :=
  if_neg real

/-- A call other than the mutex taking an action is not noticed by the loop. -/
theorem call_frame (other : e ≠ .drain) (accepted : Channel.accept e t = some (t',prog)) :
    Frame t t' ∧ Channel.machine.party e ≠ .mutex ∧ ∀ j ∈ prog, ¬ Loop j ∧
      ∀ x, j = .erase x → ∃ k, e = .itemStops k ∧ t.spawned[k]? = some x := by
  cases e with
  | drain => exact absurd rfl other
  | start x =>
    simp only [Channel.accept] at accepted
    split at accepted
    · cases accepted
      refine ⟨frame_modify rfl,by simp [Channel.machine],fun j member => ?_⟩
      rcases List.mem_pair.mp member with rfl | rfl <;> simp [Loop]
    · cases accepted
  | requestStop x =>
    simp only [Channel.accept] at accepted
    split at accepted
    · cases accepted
    · cases accepted
      refine ⟨frame_modify rfl,by simp [Channel.machine],fun j member => ?_⟩
      split at member
      · cases List.mem_singleton.mp member
        simp [Loop]
      · cases member
  | close =>
    cases accepted
    exact ⟨⟨rfl,rfl,rfl,fun _ => rfl⟩,by simp [Channel.machine],by simp⟩
  | notifyAll =>
    cases accepted
    exact ⟨⟨rfl,rfl,rfl,fun _ => rfl⟩,by simp [Channel.machine],by simp⟩
  | itemStops k =>
    simp only [Channel.accept] at accepted
    split at accepted
    · cases accepted
    · next x here =>
      split at accepted
      · cases accepted
      · cases accepted
        have frame := frame_modify (t := t) (d := { t.subs x with remover := some (.item k) }) (x := x) rfl
        refine ⟨⟨rfl,rfl,rfl,frame.removed⟩,by simp [Channel.machine],fun j member => ?_⟩
        rcases List.mem_pair.mp member with rfl | rfl
        · exact ⟨by simp [Loop],by rintro _ ⟨⟩; exact ⟨k,rfl,here⟩⟩
        · simp [Loop]

/-! ### The loop -/

/-- Where the loop is, when it has sent an item to some observers and others come later. -/
inductive Pointer (links : Links) (sent later : List Nat) : List Instr → Prop
  | asked : sent = [] → Pointer links sent later [.notifyAll]
  | ahead : Pointer links sent later [.notifyFrom (later.headD 0)]
  | next (x : Nat) : sent.getLast? = some x → links.next x = later.headD 0 → Pointer links sent later [.notifyNext x]
  | done : later = [] → Pointer links sent later []

/-- The observers that come later are in the list, behind those that have got an item and were not
    taken out; and only observers that have got an item are being taken out. -/
structure Sending (c : Config Party Turn Instr) (later : List Nat) : Prop where
  mark : c.shared.mark ≤ c.shared.context.spawned.length
  audience : c.shared.audience = c.shared.sent ++ later
  once : c.shared.audience.Nodup
  members : c.shared.context.members =
    c.shared.sent.filter (fun x => !(c.shared.context.subs x).removed) ++ later
  pointer : Pointer c.shared.context.links c.shared.sent later (c.threads .mutex)
  erasing : ∀ p x, .erase x ∈ c.threads p → x ∈ c.shared.sent

/-- The mutex and the items take observers out; the mutex runs the loop, in a turn of `notify_all`;
    in such a turn the loop is somewhere, and after it all items are sent. -/
structure Sound (c : Config Party Turn Instr) : Prop where
  erasers : ∀ p x, .erase x ∈ c.threads p → p = .mutex ∨ ∃ k, p = .item k
  loops : ∀ p i, i ∈ c.threads p → Loop i → p = .mutex ∧ c.shared.action = some .notifyAll
  sending : c.shared.action = some .notifyAll → ∃ later, Sending c later
  rest : c.shared.action ≠ some .notifyAll → c.shared.audience = c.shared.sent ∧ c.shared.audience.Nodup

/-- A step that the loop does not notice. -/
theorem Sending.frame (sending : Sending c later) (frame : Frame c.shared.context t') (other : p ≠ .mutex)
    (erases : ∀ x, .erase x ∈ prog → x ∈ c.shared.sent) :
    Sending (c.put p { c.shared with context := t' } prog) later := by
  have sent : ({ c.shared with context := t' } : Turn).sent = c.shared.sent := by
    simp only [Turn.sent,frame.spawned]
  refine ⟨?_,?_,sending.once,?_,?_,fun q x member => ?_⟩
  · simpa only [put_shared,frame.spawned] using sending.mark
  · simpa only [put_shared,sent] using sending.audience
  · simp only [put_shared,sent,frame.members,frame.removed]
    exact sending.members
  · rw [put_threads_ne c (Ne.symm other)]
    simpa only [put_shared,sent,frame.links] using sending.pointer
  · rw [put_shared,sent]
    rw [put_threads] at member
    split at member
    · exact erases x member
    · exact sending.erasing q x member

theorem erased_member (inv : Channel.Invariant (contexts c)) (left : c.threads p = .erase y :: rest) :
    y ∈ c.shared.context.members := by
  have at_p := inv.left p
  rw [show (contexts c).threads p = _ from left] at at_p
  cases at_p with
  | erasing _ _ _ _ inside known => exact Channel.mem_members.mpr ⟨known,inside⟩

theorem sent_ne_zero (inv : Channel.Invariant (contexts c)) (got : x ∈ c.shared.sent) : x ≠ 0 := by
  have known := inv.sent x (List.mem_of_mem_drop got)
  exact (inv.begun x (by rw [inv.turn x known]; simp)).1

/-- The links of neighbours lead to each other. -/
theorem next_of_prev {list : IntrusiveList} {l : List Nat} (represents : Represents links list l) (member : y ∈ l)
    (before : links.prev y = x) (real : x ≠ 0) : links.next x = y := by
  obtain ⟨a,b,rfl⟩ := List.append_of_mem member
  have last := represents.neighbours.1
  rw [before,if_neg real] at last
  obtain ⟨front,rfl⟩ := List.getLast?_eq_some_iff.mp last
  rw [List.append_assoc] at represents
  have first := represents.neighbours.2
  split at first
  · cases first
  · exact (Option.some.inj first).symm

/-- An observer that has got its item is taken out: the link that the loop follows next stays. -/
theorem Sending.erase (inv : Channel.Invariant (contexts c)) (sending : Sending c later)
    (left : c.threads p = .erase y :: rest) :
    Sending (c.put p { c.shared with context := Channel.eraseObserver c.shared.context y } rest) later := by
  have got := sending.erasing p y (by simp [left])
  have member := erased_member inv left
  have once := sending.once
  rw [sending.audience] at once
  obtain ⟨distinct,_,apart⟩ := List.nodup_append.mp once
  have other : p ≠ .mutex := by
    rintro rfl
    have pointer := sending.pointer
    rw [left] at pointer
    cases pointer
  refine ⟨sending.mark,sending.audience,sending.once,?_,?_,fun q x inside => ?_⟩
  · have alive : y ∈ c.shared.sent.filter fun x => !(c.shared.context.subs x).removed :=
      List.mem_filter.mpr ⟨got,by simpa using (Channel.mem_members.mp member).2⟩
    have members : (Channel.eraseObserver c.shared.context y).members = c.shared.context.members.erase y :=
      Channel.members_erase inv.once rfl (Channel.eraseObserver_subs _ y) rfl
    rw [put_shared]
    change (Channel.eraseObserver c.shared.context y).members = _
    rw [members,sending.members,List.erase_append_left _ alive,(distinct.filter _).erase_eq_filter,List.filter_filter]
    congr 1
    refine List.filter_congr fun x _ => ?_
    by_cases here : x = y
    · simp [here]
    · simp [here]
  · rw [put_threads_ne c (Ne.symm other)]
    have pointer := sending.pointer
    generalize c.threads .mutex = prog at pointer
    cases pointer with
    | asked none => exact .asked none
    | ahead => exact .ahead
    | done none => exact .done none
    | next x last link =>
      refine .next x last ?_
      refine (erase_next fun before => ?_).trans link
      -- the observer behind the one that the loop is at has no item yet
      have behind : c.shared.context.links.next x = y :=
        next_of_prev inv.list member before.symm (sent_ne_zero inv (List.mem_of_getLast? last))
      rw [behind] at link
      have after : y ∈ later := by
        cases later with
        | nil => exact absurd link (inv.list.ne_zero y member)
        | cons z later => simp [show y = z from link]
      exact apart y got y after rfl
  · rw [put_threads] at inside
    split at inside
    · next here => exact sending.erasing p x (by simp [left,inside])
    · exact sending.erasing q x inside

/-- How many steps the loop has left. -/
def work (later : List Nat) : List Instr → Nat
  | [] => 2 * later.length
  | .notifyFrom _ :: _ => 2 * later.length + 1
  | _ :: _ => 2 * later.length + 2

/-- A step of the loop. -/
theorem Sending.advance (inv : Channel.Invariant (contexts c)) (sending : Sending c later)
    (left : c.threads .mutex = i :: rest) (ran : (t',new) ∈ Channel.exec .mutex i c.shared.context) :
    ∃ later', Sending (c.put .mutex { c.shared with context := t' } (new ++ rest)) later' ∧
      work later' (new ++ rest) < work later (i :: rest) := by
  have represents : Represents c.shared.context.links c.shared.context.observers c.shared.context.members := inv.list
  have pointer := sending.pointer
  have erases : ∀ {s : Turn} {prog : List Instr}, (∀ x, .erase x ∉ prog) → (∀ x ∈ c.shared.sent, x ∈ s.sent) →
      ∀ q x, .erase x ∈ (c.put .mutex s prog).threads q → x ∈ s.sent := by
    intro s prog none more q x member
    rw [put_threads] at member
    split at member
    · exact absurd member (none x)
    · exact more x (sending.erasing q x member)
  rw [left] at pointer
  cases pointer with
  | asked none =>
    cases List.mem_singleton.mp ran
    have members := sending.members
    rw [none] at members
    have head := chain_headD represents.forward
    rw [show c.shared.context.members = later by simpa using members] at head
    refine ⟨later,⟨sending.mark,sending.audience,sending.once,sending.members,?_,erases (by simp) fun _ => id⟩,
      by simp [work]⟩
    rw [put_threads_self,head]
    exact .ahead
  | ahead =>
    cases later with
    | nil =>
      cases List.mem_singleton.mp ran
      refine ⟨[],⟨sending.mark,sending.audience,sending.once,sending.members,?_,erases (by simp) fun _ => id⟩,
        by simp [work]⟩
      rw [put_threads_self]
      exact .done rfl
    | cons x later =>
      have member : x ∈ c.shared.context.members := by simp [sending.members]
      have real := represents.ne_zero x member
      rw [List.headD_cons,exec_notifyFrom _ real] at ran
      cases List.mem_singleton.mp ran
      have sent : ({ c.shared with
          context := { c.shared.context with spawned := c.shared.context.spawned ++ [x] } } : Turn).sent =
          c.shared.sent ++ [x] := List.drop_append_of_le_length sending.mark
      have split := represents
      rw [sending.members] at split
      refine ⟨later,⟨?_,?_,sending.once,?_,?_,erases (by simp) fun y got => ?_⟩,by simp [work]; omega⟩
      · simp only [put_shared,List.length_append]
        have := sending.mark
        omega
      · rw [put_shared,sent,List.append_assoc]
        exact sending.audience
      · have alive := (Channel.mem_members.mp member).2
        rw [put_shared,sent,List.filter_append,List.filter_cons_of_pos (by simpa using alive),List.append_assoc]
        exact sending.members
      · rw [put_threads_self,put_shared,sent]
        exact .next x (by simp) (chain_headD (chain_after split.forward))
      · rw [sent]
        exact List.mem_append_left _ got
  | next x last link =>
    cases List.mem_singleton.mp ran
    refine ⟨later,⟨sending.mark,sending.audience,sending.once,sending.members,?_,erases (by simp) fun _ => id⟩,
      by simp [work]⟩
    rw [put_threads_self,put_shared,link]
    exact .ahead

/-- The parties of a run with two observers and two items. -/
def parties : List Party := [.starter 1,.starter 2,.mutex,.caller,.item 0,.item 1]

/-- Two observers come into the list. -/
def twoObservers : List (Label Party Event × Nat) :=
  [(.call (.start 1),0),(.run (.starter 1),0),(.run (.starter 1),0),(.run (.starter 1),0),
    (.call .drain,0),(.run .mutex,0),
    (.call (.start 2),0),(.run (.starter 2),0),(.run (.starter 2),0),(.run (.starter 2),0),
    (.call .drain,0),(.run .mutex,0)]

/-- Without waiting for the `notify_all` before, the loop reaches an observer that was taken out
    and whose receiver was completed: the link to it is that of another one that was taken out. -/
theorem overlapping_sends_to_completed :
    ¬ ∀ c, Reach machine (fun c l => RemovedOnce (contexts c) l) initial c →
      ∀ x rest, c.threads .mutex = .notifyFrom x :: rest → x ≠ 0 → (c.shared.context.subs x).completions = 0 := by
  intro claimed
  obtain ⟨c,reach,computed⟩ := exists_of_follow machine (fun c l => RemovedOnce (contexts c) l) initial
    (fun c l => Channel.removedOnce (contexts c) l) (fun c l => Channel.removedOnce_of_computed (contexts c) l)
    (twoObservers ++ [(.call .notifyAll,0),(.call .drain,0),
      (.run .mutex,0),(.run .mutex,0),(.run .mutex,0),(.run .mutex,0),(.run .mutex,0),(.run .mutex,0),
      (.call .notifyAll,0),(.call .drain,0),(.run .mutex,0),(.run .mutex,0),
      (.call (.itemStops 0),0),(.run (.item 0),0),(.run (.item 0),0),(.run (.item 0),0),(.run (.item 0),0),
      (.call (.itemStops 1),0),(.run (.item 1),0),(.run (.item 1),0),(.run (.item 1),0),(.run (.item 1),0),
      (.run .mutex,0)])
    (fun c => c.threads .mutex = [.notifyFrom 2] ∧ (c.shared.context.subs 2).completions = 1) (by decide)
  obtain ⟨left,completed⟩ := of_decide_eq_true computed
  have := claimed c reach 2 [] left (by decide)
  omega

end SendersIo.Broadcast
