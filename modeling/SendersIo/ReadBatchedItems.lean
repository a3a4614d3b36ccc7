import SendersIo.ReadBatched

/-!
The `zip` of the buffers and the offsets. Both sequences hand out one item after the
other, so that the `k`-th tuple is made of the `k`-th buffer and of the `k`-th
offset. A stop is requested only when a sequence has completed, and a sequence that
completes first has run out of items: there is a tuple for every buffer that has an
offset by then, and the zip completes with a value.
-/
namespace SendersIo.ReadBatchedItems
open SendersIo.Interleaving SendersIo.Signals SendersIo.Buffers SendersIo.FileHandle SendersIo.ReadBatched
open SendersIo.Zip (Item OperationBase)
open SendersIo.ZipPairing (Invariant nested_invariant)

variable {Error : Type}

/-- A configuration of the `zip` of two sequences. -/
abbrev Zipping (Error : Type) :=
  Config (Zip.Party 2) (OperationBase 2 Value Error) (Zip.Instr 2 Value Error)

-- named, so that the literals of `Fin 2` share one proof
local instance neZeroTwo : NeZero 2 := ⟨two_ne_zero⟩

/-- The items of the two sequences. -/
def itemsOf (buffers : List Buffer) (offsets : List (BitVec 64)) (i : Fin 2) : List Value :=
  if i = 0 then buffers.map .buffer else offsets.map .offset

/-- The events of `zip` that the sequences and `fork` raise, with what they do and how
    many items the sequences have handed out then. -/
inductive Supplied (s : Batch Error) :
    Zip.Event 2 Value Error → OperationBase 2 Value Error → List (Zip.Instr 2 Value Error) → (Fin 2 → Nat) → Prop
  | start : s.zip.begun = false → Supplied s .start { s.zip with begun := true }
      (.emplaceStopCallback :: (List.finRange 2).map .startChild) s.position
  | setNext (x : Item 2) : x.seq = s.position x.index → x.seq < (s.items x.index).length → s.goesOn x.index = true →
      Supplied s (.setNext x) { s.zip with startedItems := s.zip.startedItems ++ [x] } []
        (Function.update s.position x.index (x.seq + 1))
  | itemValue (x : Item 2) (v : Value) : (s.items x.index)[x.seq]? = some v → x ∈ s.zip.startedItems →
      x ∉ s.zip.completedItems → Supplied s (.itemValue x v)
        { s.zip with
          completedItems := s.zip.completedItems ++ [x]
          arrived := Function.update s.zip.arrived x.index (s.zip.arrived x.index ++ [(x,v)]) }
        (Zip.itemSetValue x v) s.position
  | zippedValue (k : Nat) (e : Zip.Emitted 2 Value) : s.zip.emitted[k]? = some e →
      setNextDone (s.fork.phase k) = true → e.trigger ∉ s.zip.completedZipped → Supplied s (.zippedValue e.trigger)
        { s.zip with completedZipped := s.zip.completedZipped ++ [e.trigger] } (Zip.zippedSetValue e.trigger) s.position
  | childCompletes (i : Fin 2) (signal : Signal Error) : signal.error? = none →
      (s.goesOn i = true ∧ s.position i = (s.items i).length ∨ s.itemDone i Completion.isStopped = true) →
      i ∉ s.zip.completedChildren → ¬ Zip.ItemsOpen s.zip i → Supplied s (.childCompletes i signal)
        { s.zip with
          completedChildren := s.zip.completedChildren ++ [i]
          reported := s.zip.reported ++ signal.error?.toList } (Zip.childComplete i signal) s.position

variable {c now later : Config Party (Batch Error) (Instr Error)} {s : Batch Error} {stack : List Party}
  {buffers : List Buffer} {offsets : List (BitVec 64)} {w : World} {z z' : OperationBase 2 Value Error}
  {p : Zip.Party 2} {i : Zip.Instr 2 Value Error} {new rest : List (Zip.Instr 2 Value Error)}

theorem supplied_of_raised {e : Zip.Event 2 Value Error} (permitted : s.permitsZip e = true)
    (raised : Zip.Raised s.zip e z new) :
    Supplied s e z new (s.handedOut e) := by
  cases raised with
  | start fresh => exact .start fresh
  | setNext x =>
    simp only [Batch.permitsZip,Bool.and_eq_true,decide_eq_true_eq] at permitted
    exact .setNext x permitted.1.1 permitted.1.2 permitted.2
  | itemValue x v started open_ =>
    simp only [Batch.permitsZip,decide_eq_true_eq] at permitted
    exact .itemValue x v permitted started open_
  | zippedValue x _ open_ =>
    obtain ⟨⟨e,k⟩,member,holds⟩ := List.any_eq_true.mp permitted
    simp only [Bool.and_eq_true,decide_eq_true_eq] at holds
    obtain ⟨rfl,done⟩ := holds
    exact .zippedValue k e (List.mem_zipIdx_iff_getElem?.mp member) done open_
  | childCompletes i signal _ open_ none =>
    simp only [Batch.permitsZip,Bool.and_eq_true,Bool.or_eq_true,decide_eq_true_eq,Option.isNone_iff_eq_none] at permitted
    exact .childCompletes i signal permitted.1 permitted.2 open_ none
  | _ => cases permitted

theorem ran_of_zipExec (ran : (z',new) ∈ zipExec i z) : Zip.Ran none z i z' new := Zip.ran_of_mem (zipExec_mem ran)

/-- What no step of a handler changes, and what only grows. -/
structure Frame (z z' : OperationBase 2 Value Error) : Prop where
  begun : z'.begun = z.begun
  startedItems : z'.startedItems = z.startedItems
  completedItems : z'.completedItems = z.completedItems
  arrived : z'.arrived = z.arrived
  completedZipped : z'.completedZipped = z.completedZipped
  completedChildren : z'.completedChildren = z.completedChildren
  calm : z'.outerStopRequested = z.outerStopRequested
  stop : z.stopRequested = true → z'.stopRequested = true
  startedChildren : ∀ i ∈ z.startedChildren, i ∈ z'.startedChildren
  itemCompletions : ∀ d ∈ z.itemCompletions, d ∈ z'.itemCompletions
  emitted : z.emitted <+: z'.emitted

theorem ran_frame (ran : Zip.Ran none z i z' new) : Frame z z' := by
  cases ran <;> constructor <;> simp +contextual

/-- The sequences and the file are what they were. -/
theorem reads_constant (reads : Reads buffers offsets w c stack) :
    c.shared.buffers = buffers ∧ c.shared.offsets = offsets := by
  refine Reads.invariant (I := fun c _ => c.shared.buffers = buffers ∧ c.shared.offsets = offsets) ⟨rfl,rfl⟩
    (fun _ _ _ _ _ _ _ _ ih _ _ _ => ih) (fun _ _ _ _ _ _ _ _ ih _ _ _ _ => ih) ?_ (fun _ _ _ _ ih _ => ih)
    ?_ (fun _ _ _ _ _ _ ih _ _ _ _ _ => ih) (fun _ _ _ _ _ _ _ ih _ _ _ _ _ => ih) reads
  · intro c p below i rest k f new _ ih _ _ _ _
    obtain ⟨_,_,same⟩ := startRead_keeps { c.shared with fork := f } k
    rw [put_shared,same]
    exact ih
  · rintro c stack e z new s _ ih _ _ _ rfl _ _
    exact ih

theorem reads_items (reads : Reads buffers offsets w c stack) : c.shared.items = itemsOf buffers offsets := by
  obtain ⟨first,second⟩ := reads_constant reads
  funext i
  rw [Batch.items,itemsOf,first,second]

theorem reads_zip (reads : Reads buffers offsets w c stack) : Invariant (zipOf c) (zipStack stack) :=
  nested_invariant (by decide) (nested_parts reads).2.1

/-- The rule of `Reads.invariant` for what is about `zip` and the numbers of items. -/
theorem Reads.zip_invariant {J : Zipping Error → (Fin 2 → Nat) → Prop}
    (start : J (Zip.initial 2 Value Error) fun _ => 0)
    (run : ∀ now later stack p i rest z new, Reads buffers offsets w now (.zip p :: stack) →
      Reads buffers offsets w later (.zip p :: stack) → J (zipOf now) now.shared.position →
      (zipOf now).threads p = i :: rest → (z,new) ∈ zipExec i now.shared.zip →
      zipOf later = (zipOf now).put p z (new ++ rest) → later.shared.position = now.shared.position →
      J ((zipOf now).put p z (new ++ rest)) now.shared.position)
    (event : ∀ now later stack p e z new position, Reads buffers offsets w now stack →
      Reads buffers offsets w later (.zip p :: stack) → J (zipOf now) now.shared.position →
      Outside isCallout now stack → Supplied now.shared e z new position →
      p = (Zip.machine 2 Value (none : Option Error)).party e → (zipOf now).threads p = [] →
      zipOf later = (zipOf now).put p z new → later.shared.position = position →
      J ((zipOf now).put p z new) position)
    (reads : Reads buffers offsets w c stack) : J (zipOf c) c.shared.position := by
  refine Reads.invariant (I := fun c _ => J (zipOf c) c.shared.position) start ?_ ?_ ?_ (fun _ _ _ _ ih _ => ih) ?_ ?_ ?_
    reads
  · intro c p below i rest z new before ih left ran after
    have same := zipOf_put_zip c p { c.shared with zip := z } (new.map .zip ++ rest)
    rw [List.filterMap_append,filterMap_zip] at same
    rw [same]
    exact run c _ below p i (rest.filterMap Instr.zip?) z new before after ih (by simp [zipOf,left,Instr.zip?]) ran same rfl
  · intro c p below i rest f new _ ih _ _ _ _
    rw [zipOf_put_other c rfl]
    · exact ih
    · rfl
  · intro c p below i rest k f new _ ih _ _ _ _
    obtain ⟨_,_,same⟩ := startRead_keeps { c.shared with fork := f } k
    rw [zipOf_put_other c (p := .fork p) rfl (by rw [same]),put_shared,same]
    exact ih
  · intro c stack e z new s before ih out permitted raised changed idle after
    have zipped : s.zip = z := by rw [changed]
    have position : s.position = c.shared.handedOut e := by rw [changed]
    have same := zipOf_put_zip c ((Zip.machine 2 Value (none : Option Error)).party e) s (new.map .zip)
    rw [filterMap_zip,zipped] at same
    have nothing : (zipOf c).threads ((Zip.machine 2 Value (none : Option Error)).party e) = [] := by
      show (c.threads ((machine Error).party (.zip e))).filterMap _ = _
      rw [idle]
      rfl
    have kept := event c _ stack _ e z new _ before after ih out (supplied_of_raised permitted raised) rfl nothing same
      position
    rw [← same] at kept
    rw [put_shared,position]
    exact kept
  · intro c stack e f new _ ih _ _ _ _ _
    rw [zipOf_put_other c rfl]
    · exact ih
    · rfl
  · intro c stack k n r sqe _ ih _ _ _ _ _
    rw [zipOf_put_other c (s := c.shared.reply k r n) rfl rfl]
    exact ih

/-! ### The items in their order -/

/-- An item is completed only after its sender has. -/
theorem completed_of_completions {x : Item 2} (inv : Invariant (zipOf c) (zipStack stack))
    (member : x ∈ c.shared.zip.itemCompletions.map (·.1)) : x ∈ c.shared.zip.completedItems := by
  by_contra open_
  have placed := inv.placed x
  rw [if_neg (show x ∉ (zipOf c).shared.completedItems from open_),ZipPairing.places,ZipPairing.kept] at placed
  have : 0 < ((zipOf c).shared.itemCompletions.map (·.1)).count x := List.count_pos_iff.mpr member
  omega

/-- The sequences hand out their items in order, one after the other, and every item
    that a sequence has gone on after was completed with a value. -/
structure Handed (items : Fin 2 → List Value) (c : Zipping Error) (position : Fin 2 → Nat) : Prop where
  inside : ∀ i, position i ≤ (items i).length
  started : ∀ x, x ∈ c.shared.startedItems ↔ x.seq < position x.index
  arrived : ∀ i j (a : Item 2 × Value), (c.shared.arrived i)[j]? = some a → a.1 = ⟨i,j⟩ ∧ (items i)[j]? = some a.2
  completed : ∀ x, x ∈ c.shared.completedItems ↔ x.seq < (c.shared.arrived x.index).length
  behind : ∀ i, (c.shared.arrived i).length ≤ position i ∧ position i ≤ (c.shared.arrived i).length + 1
  done : ∀ x, x.seq + 1 < position x.index → (x,.value ()) ∈ c.shared.itemCompletions

section
variable {items : Fin 2 → List Value} {d : Zipping Error} {e : Zipping Error} {position : Fin 2 → Nat} {x y : Item 2}

/-- A step of a handler, or an event, that hands out nothing. -/
theorem Handed.congr (handed : Handed items d position) (started : e.shared.startedItems = d.shared.startedItems)
    (completed : e.shared.completedItems = d.shared.completedItems) (arrived : e.shared.arrived = d.shared.arrived)
    (grows : ∀ a ∈ d.shared.itemCompletions, a ∈ e.shared.itemCompletions) : Handed items e position where
  inside := handed.inside
  started := by rw [started]; exact handed.started
  arrived := by rw [arrived]; exact handed.arrived
  completed := by rw [completed,arrived]; exact handed.completed
  behind := by rw [arrived]; exact handed.behind
  done x before := grows _ (handed.done x before)

theorem item_ext (index : y.index = x.index) (seq : y.seq = x.seq) : y = x := by
  cases x
  cases y
  simp_all

/-- One more item at the end of those of its sequence. -/
theorem mem_append_item {l : List (Item 2)} {bound : Fin 2 → Nat} (below : ∀ y, y ∈ l ↔ y.seq < bound y.index)
    (at_x : x.seq = bound x.index) (y : Item 2) :
    y ∈ l ++ [x] ↔ y.seq < Function.update bound x.index (x.seq + 1) y.index := by
  rw [List.mem_append,List.mem_singleton,below]
  by_cases same : y.index = x.index
  · rw [same,Function.update_self,Nat.lt_succ_iff_lt_or_eq,at_x]
    exact or_congr_right ⟨fun here => here ▸ at_x,fun here => item_ext same (here.trans at_x.symm)⟩
  · rw [Function.update_of_ne same]
    refine ⟨fun either => either.resolve_right ?_,.inl⟩
    rintro rfl
    exact same rfl

/-- A sequence whose items have all arrived hands out the next one. -/
theorem Handed.setNext (handed : Handed items d position) (at_x : x.seq = position x.index)
    (more : x.seq < (items x.index).length) (caught : (d.shared.arrived x.index).length = position x.index)
    (last : position x.index = 0 ∨ (⟨x.index,position x.index - 1⟩,.value ()) ∈ d.shared.itemCompletions)
    (started : e.shared.startedItems = d.shared.startedItems ++ [x])
    (completed : e.shared.completedItems = d.shared.completedItems) (arrived : e.shared.arrived = d.shared.arrived)
    (completions : e.shared.itemCompletions = d.shared.itemCompletions) :
    Handed items e (Function.update position x.index (x.seq + 1)) where
  inside i := by
    by_cases same : i = x.index
    · subst same
      rwa [Function.update_self]
    · rw [Function.update_of_ne same]
      exact handed.inside i
  started y := by
    rw [started]
    exact mem_append_item handed.started at_x y
  arrived := by rw [arrived]; exact handed.arrived
  completed := by rw [completed,arrived]; exact handed.completed
  behind i := by
    rw [arrived]
    by_cases same : i = x.index
    · subst same
      rw [Function.update_self]
      omega
    · rw [Function.update_of_ne same]
      exact handed.behind i
  done y before := by
    rw [completions]
    by_cases same : y.index = x.index
    · rw [same,Function.update_self] at before
      by_cases here : y.seq + 1 = x.seq
      · have member := last.resolve_left (by omega)
        rwa [item_ext (x := y) (y := ⟨x.index,position x.index - 1⟩) same.symm (by simp only; omega)] at member
      · exact handed.done y (by rw [same]; omega)
    · rw [Function.update_of_ne same] at before
      exact handed.done y before

/-- The item that was handed out last arrives. -/
theorem Handed.arrive {v : Value} (handed : Handed items d position) (value : (items x.index)[x.seq]? = some v)
    (open_ : x ∈ d.shared.startedItems) (fresh : x ∉ d.shared.completedItems)
    (started : e.shared.startedItems = d.shared.startedItems)
    (completed : e.shared.completedItems = d.shared.completedItems ++ [x])
    (arrived : e.shared.arrived = Function.update d.shared.arrived x.index (d.shared.arrived x.index ++ [(x,v)]))
    (completions : e.shared.itemCompletions = d.shared.itemCompletions) : Handed items e position := by
  have first := (handed.started x).mp open_
  have second := mt (handed.completed x).mpr fresh
  have third := (handed.behind x.index).2
  have last : x.seq = (d.shared.arrived x.index).length := by omega
  have lengths : ∀ i, (e.shared.arrived i).length =
      Function.update (fun i => (d.shared.arrived i).length) x.index (x.seq + 1) i := by
    intro i
    rw [arrived]
    by_cases same : i = x.index
    · subst same
      simp [last]
    · simp [same]
  constructor
  · exact handed.inside
  · rw [started]
    exact handed.started
  · intro i j a at_j
    rw [arrived] at at_j
    by_cases same : i = x.index
    · subst same
      rw [Function.update_self,List.getElem?_append] at at_j
      split at at_j
      · exact handed.arrived x.index j a at_j
      · obtain ⟨here,rfl⟩ : j - (d.shared.arrived x.index).length = 0 ∧ (x,v) = a := by
          simpa [List.getElem?_singleton] using at_j
        obtain rfl : j = x.seq := by omega
        exact ⟨rfl,value⟩
    · rw [Function.update_of_ne same] at at_j
      exact handed.arrived i j a at_j
  · intro y
    rw [completed,lengths]
    exact mem_append_item handed.completed last y
  · intro i
    rw [lengths]
    by_cases same : i = x.index
    · subst same
      rw [Function.update_self]
      omega
    · rw [Function.update_of_ne same]
      exact handed.behind i
  · rw [completions]
    exact handed.done

end

theorem itemDone_mem {i : Fin 2} {such : Signal Error → Bool} (done : s.itemDone i such = true) :
    ∃ signal, (⟨i,s.position i - 1⟩,signal) ∈ s.zip.itemCompletions ∧ such signal = true := by
  obtain ⟨⟨x,signal⟩,member,holds⟩ := List.any_eq_true.mp done
  simp only [Bool.and_eq_true,decide_eq_true_eq] at holds
  obtain ⟨rfl,holds⟩ := holds
  exact ⟨signal,member,holds⟩

/-- A sequence goes on after its last item was completed with a value. -/
theorem goesOn_mem {i : Fin 2} (goes : s.goesOn i = true) :
    s.position i = 0 ∨ (⟨i,s.position i - 1⟩,.value ()) ∈ s.zip.itemCompletions := by
  rcases Bool.or_eq_true_iff.mp goes with none | done
  · exact .inl (by simpa using none)
  · obtain ⟨signal,member,value⟩ := itemDone_mem done
    cases signal with
    | value => exact .inr member
    | _ => cases value

theorem reads_handed (reads : Reads buffers offsets w c stack) :
    Handed (itemsOf buffers offsets) (zipOf c) c.shared.position := by
  refine Reads.zip_invariant ⟨by simp,by simp [Zip.initial],by simp [Zip.initial],by simp [Zip.initial],
    by simp [Zip.initial],by simp⟩ ?_ ?_ reads
  · intro now later stack p i rest z new _ _ handed _ ran _ _
    have frame := ran_frame (ran_of_zipExec ran)
    exact handed.congr frame.startedItems frame.completedItems frame.arrived frame.itemCompletions
  · intro now later stack p e z new position before _ handed _ supplied _ _ _ _
    cases supplied with
    | setNext x at_x inside goes =>
      rw [reads_items before] at inside
      refine handed.setNext at_x inside ?_ (goesOn_mem goes) rfl rfl rfl rfl
      have behind := handed.behind x.index
      rcases goesOn_mem goes with none | member
      · omega
      · have before := (handed.completed _).mp (completed_of_completions (reads_zip before) (List.mem_map_of_mem member))
        simp only at before
        omega
    | itemValue x v at_x started open_ =>
      rw [reads_items before] at at_x
      exact handed.arrive at_x started open_ rfl rfl rfl rfl
    | _ => exact handed.congr rfl rfl rfl fun _ member => member

/-- The `k`-th tuple is made of the `k`-th items. -/
theorem reads_tuple {k : Nat} {e : Zip.Emitted 2 Value} (reads : Reads buffers offsets w c stack)
    (at_k : c.shared.zip.emitted[k]? = some e) (i : Fin 2) :
    e.itemOps i = ⟨i,k⟩ ∧ (itemsOf buffers offsets i)[k]? = some (e.values i) := by
  obtain ⟨later,whole⟩ := (reads_zip reads).known.begins i
  have tuple : (ZipPairing.tuples c.shared.zip i)[k]? = some (e.itemOps i,e.values i) := by
    rw [ZipPairing.tuples,List.getElem?_map,at_k]
    rfl
  have inside := (List.getElem?_eq_some_iff.mp tuple).1
  refine (reads_handed reads).arrived i k (e.itemOps i,e.values i) ?_
  rw [← whole]
  exact (List.getElem?_append_left inside).trans tuple

theorem trigger_seq {k : Nat} {e : Zip.Emitted 2 Value} (reads : Reads buffers offsets w c stack)
    (at_k : c.shared.zip.emitted[k]? = some e) : e.trigger.seq = k := by
  rw [← ((reads_zip reads).known.held e (List.mem_of_getElem? at_k)).2,(reads_tuple reads at_k e.trigger.index).1]

/-- No tuple is made of items that have not arrived. -/
theorem emitted_le_arrived (reads : Reads buffers offsets w c stack) (i : Fin 2) :
    c.shared.zip.emitted.length ≤ (c.shared.zip.arrived i).length := by
  have := ((reads_zip reads).known.begins i).length_le
  simpa [ZipPairing.tuples] using this

theorem emitted_le (reads : Reads buffers offsets w c stack) (i : Fin 2) :
    c.shared.zip.emitted.length ≤ (itemsOf buffers offsets i).length := by
  have first := emitted_le_arrived reads i
  have second := ((reads_handed reads).behind i).1
  have third := (reads_handed reads).inside i
  rw [zipOf_shared] at second
  omega

/-! ### How the zip ends -/

/-- What an instruction relies on: a stop is requested when a sequence has completed,
    nothing has failed, and who finishes has requested a stop. -/
def Sound (z : OperationBase 2 Value Error) : Zip.Instr 2 Value Error → Prop
  | .requestStop => z.completedChildren ≠ []
  | .setStopped _ => z.stopRequested = true
  | .storeError _ => False
  | .fetchSub i signal => i ∈ z.completedChildren ∧ signal.error? = none
  | .resetStopCallback signal | .finish signal => z.stopRequested = true ∧ signal.error? = none
  | _ => True

/-- A stop is requested after a sequence has completed, and before the second one does:
    the zip completes with a value. -/
structure Ending (c : Zipping Error) : Prop where
  errors : c.shared.errors = none
  calm : c.shared.outerStopRequested = false
  sound : ∀ p, ∀ i ∈ c.threads p, Sound c.shared i
  requested : c.shared.stopRequested = true → c.shared.completedChildren ≠ []
  stopped : ∀ x, (x,.stopped) ∈ c.shared.itemCompletions → c.shared.stopRequested = true
  delivered : ∀ d ∈ c.shared.completions, d.signal = .value ()
  wants : c.shared.decremented ≠ [] → c.shared.stopRequested = true ∨ ∃ p rest, c.threads p = .requestStop :: rest

theorem Sound.mono (frame : Frame z z') (sound : Sound z i) : Sound z' i := by
  cases i with
  | requestStop => exact (show z'.completedChildren ≠ [] from frame.completedChildren ▸ sound)
  | setStopped x => exact frame.stop sound
  | storeError e => exact sound.elim
  | fetchSub j signal => exact ⟨frame.completedChildren ▸ sound.1,sound.2⟩
  | resetStopCallback signal => exact ⟨frame.stop sound.1,sound.2⟩
  | finish signal => exact ⟨frame.stop sound.1,sound.2⟩
  | _ => trivial

theorem notLast_of_value {signal : Signal Error} (fine : signal.error? = none) :
    (Zip.notLast signal : List (Zip.Instr 2 Value Error)) = [.requestStop,.clearQueues] := by
  cases signal with
  | error e => cases fine
  | _ => rfl

theorem sound_new (sound : Sound z i) (calm : z.outerStopRequested = false)
    (last : ∀ j signal, i = .fetchSub j signal → ¬ z.nPendingOperations > 1 → z.stopRequested = true)
    (ran : Zip.Ran none z i z' new) : ∀ j ∈ new, Sound z' j := by
  intro j member
  cases ran with
  | emplaceStopCallback => simp [calm] at member
  | emplaceThrows x v e throws => cases throws
  | zippedThrows x result next e throws => cases throws
  | testStop x =>
    split at member
    · rename_i stop
      cases List.mem_singleton.mp member
      exact stop
    · cases List.mem_singleton.mp member
      trivial
  | announced x front =>
    split at member
    · cases List.mem_singleton.mp member
      trivial
    · cases member
  | checkStop x result =>
    split at member <;> cases List.mem_singleton.mp member <;> trivial
  | startZipped x result next ops held =>
    rcases List.mem_cons.mp member with rfl | later
    · trivial
    · split at later
      · cases List.mem_singleton.mp later
        trivial
      · cases later
  | completeAllItemOps x ops held =>
    obtain ⟨k,rfl⟩ := Zip.mem_completeAll.mp member
    trivial
  | clearQueues =>
    obtain ⟨k,x,_,rfl⟩ := Zip.mem_completeQueues.mp member
    trivial
  | fetchSub k signal =>
    split at member
    · rw [notLast_of_value sound.2] at member
      rcases List.mem_cons.mp member with rfl | later
      · exact List.ne_nil_of_mem sound.1
      · cases List.mem_singleton.mp later
        trivial
    · rename_i alone
      cases List.mem_singleton.mp member
      exact ⟨last k signal rfl alone,sound.2⟩
  | resetStopCallback signal =>
    cases List.mem_singleton.mp member
    exact sound
  | _ =>
    first
      | cases member; done
      | cases List.mem_singleton.mp member; trivial

theorem ran_stop (ran : Zip.Ran none z i z' new) : z'.stopRequested = z.stopRequested ∨ i = .requestStop := by
  cases ran <;> first | exact .inl rfl | exact .inr rfl

theorem ran_stopped {x : Item 2} (sound : Sound z i) (ran : (z',new) ∈ zipExec i z)
    (member : (x,.stopped) ∈ z'.itemCompletions) : (x,.stopped) ∈ z.itemCompletions ∨ z.stopRequested = true := by
  cases i with
  | complete y =>
    cases List.mem_singleton.mp ran
    rcases List.mem_append.mp member with before | here
    · exact .inl before
    · right
      cases stop : z.stopRequested with
      | true => rfl
      | false => simp [stop] at here
  | setStopped y => exact .inr sound
  | _ =>
    left
    have ran := ran_of_zipExec ran
    cases ran <;> exact member

/-- The last sequence sends a value. -/
theorem outcome_value {signal : Signal Error} (calm : z.outerStopRequested = false) (errors : z.errors = none)
    (stop : z.stopRequested = true) (fine : signal.error? = none) : Zip.outcome z signal = .value () := by
  cases signal with
  | error e => cases fine
  | value => simp [Zip.outcome,calm,errors]
  | stopped => simp [Zip.outcome,stop,calm]
theorem ending_run {d : Zipping Error} (ending : Ending d) (counted : ZipOutcome.Counted d.shared (ZipOutcome.stage d))
    (inner : ∀ q j l, d.threads q = j :: l → Zip.isCallout j = false → q = p) (left : d.threads p = i :: rest)
    (ran : (z,new) ∈ zipExec i d.shared) : Ending (d.put p z (new ++ rest)) := by
  have step := ran_of_zipExec ran
  have frame := ran_frame step
  have here := ending.sound p i (by simp [left])
  -- a sequence that has asked for a stop is at that instruction
  have stops : d.shared.decremented ≠ [] → i ≠ .requestStop → d.shared.stopRequested = true := by
    intro some other
    refine (ending.wants some).resolve_right ?_
    rintro ⟨q,l,asks⟩
    obtain rfl := inner q _ l asks rfl
    rw [left] at asks
    exact other (List.cons.inj asks).1
  have last : ∀ j signal, i = .fetchSub j signal → ¬ d.shared.nPendingOperations > 1 → d.shared.stopRequested = true := by
    rintro j signal rfl alone
    refine stops ?_ (by simp)
    intro none
    have := counted.pending
    rw [none] at this
    simp at this
    omega
  constructor
  · have errors := ending.errors
    cases step with
    | storeError e => exact here.elim
    | _ => exact errors
  · exact frame.calm.trans ending.calm
  · intro q j member
    rw [put_threads] at member
    split at member
    · refine (List.mem_append.mp member).elim (sound_new here ending.calm last step j) fun later => ?_
      exact (ending.sound p j (by simp [left,later])).mono frame
    · exact (ending.sound q j member).mono frame
  · intro stop
    rw [put_shared,frame.completedChildren]
    rcases ran_stop step with same | rfl
    · exact ending.requested (same ▸ stop)
    · exact here
  · intro x member
    exact frame.stop ((ran_stopped here ran member).elim (ending.stopped x) id)
  · have delivered := ending.delivered
    cases step with
    | finish signal =>
      intro d' member
      rcases List.mem_append.mp member with before | now
      · exact delivered d' before
      · cases List.mem_singleton.mp now
        exact outcome_value ending.calm ending.errors here.1 here.2
    | _ => exact delivered
  · intro some
    cases step with
    | fetchSub k signal =>
      by_cases alone : d.shared.nPendingOperations > 1
      · right
        refine ⟨p,.clearQueues :: rest,?_⟩
        rw [put_threads_self,if_pos alone,notLast_of_value here.2]
        rfl
      · exact .inl (last k signal rfl alone)
    | requestStop => exact .inl rfl
    | _ => exact .inl (frame.stop (stops some (by simp)))

theorem ending_event {d : Zipping Error} {e : Zip.Event 2 Value Error} {position : Fin 2 → Nat} (ending : Ending d)
    (same : d.shared = s.zip) (idle : d.threads p = []) (supplied : Supplied s e z new position) :
    Ending (d.put p z new) := by
  obtain ⟨shared,threads⟩ := d
  simp only at same
  subst same
  have wants : s.zip.decremented ≠ [] → s.zip.stopRequested = true ∨
      ∃ q rest, ((Config.mk s.zip threads).put p z new).threads q = .requestStop :: rest := by
    intro some
    refine (ending.wants some).imp_right ?_
    rintro ⟨q,rest,asks⟩
    have other : q ≠ p := by
      rintro rfl
      cases asks.symm.trans idle
    exact ⟨q,rest,by rw [put_threads_ne _ other,asks]⟩
  have sound : ∀ z', (∀ j ∈ new, Sound z' j) → (∀ j, Sound s.zip j → Sound z' j) →
      ∀ q, ∀ j ∈ ((Config.mk s.zip threads).put p z' new).threads q, Sound z' j := by
    intro z' fresh old q j member
    rw [put_threads] at member
    split at member
    · exact fresh j member
    · exact old j (ending.sound q j member)
  cases supplied with
  | childCompletes k signal fine =>
    refine ⟨ending.errors,ending.calm,sound _ ?_ ?_,fun _ => by simp,ending.stopped,ending.delivered,wants⟩
    · intro j member
      cases List.mem_singleton.mp member
      exact ⟨by simp,fine⟩
    · intro j holds
      cases j with
      | requestStop => exact List.append_ne_nil_of_right_ne_nil _ (by simp)
      | fetchSub k signal => exact ⟨List.mem_append_left _ holds.1,holds.2⟩
      | _ => exact holds
  | start =>
    refine ⟨ending.errors,ending.calm,sound _ ?_ fun j holds => ?_,ending.requested,ending.stopped,ending.delivered,wants⟩
    · intro j member
      rcases List.mem_cons.mp member with rfl | later
      · trivial
      · obtain ⟨k,_,rfl⟩ := List.mem_map.mp later
        trivial
    · cases j <;> exact holds
  | _ =>
    refine ⟨ending.errors,ending.calm,sound _ ?_ fun j holds => ?_,ending.requested,ending.stopped,ending.delivered,wants⟩
    · intro j member
      first
        | cases member; done
        | cases List.mem_singleton.mp member; trivial
    · cases j <;> exact holds

theorem reads_ending (reads : Reads buffers offsets w c stack) : Ending (zipOf c) := by
  refine Reads.zip_invariant (J := fun d _ => Ending d) ?_ ?_ ?_ reads
  · constructor <;> simp [Zip.initial]
  · intro now later stack p i rest z new before _ ending left ran _ _
    have nested := (nested_parts before).2.1
    refine ending_run ending (ZipOutcome.reach_counted nested.reach) ?_ left ran
    intro q j l at_q own
    obtain ⟨below,same⟩ := nested.innermost (fun _ => rfl) at_q own
    exact ((List.cons.inj same).1).symm
  · intro now later stack p e z new position _ _ ending _ supplied _ idle _ _
    exact ending_event ending rfl idle supplied

/-! ### A tuple for every buffer that has an offset -/

theorem itemsOf_length (i : Fin 2) :
    (itemsOf buffers offsets i).length = if i = 0 then buffers.length else offsets.length := by
  unfold itemsOf
  split <;> simp

theorem emitted_le_min (reads : Reads buffers offsets w c stack) :
    c.shared.zip.emitted.length ≤ min buffers.length offsets.length := by
  have first := emitted_le reads 0
  have second := emitted_le reads 1
  rw [itemsOf_length] at first second
  exact le_min first second

theorem min_le_items (i : Fin 2) : min buffers.length offsets.length ≤ (itemsOf buffers offsets i).length := by
  rw [itemsOf_length]
  split
  · exact min_le_left _ _
  · exact min_le_right _ _

/-- An item is at one place at most, and only if its sender has completed. -/
theorem waiting_item (reads : Reads buffers offsets w c stack) {i : Fin 2} {x : Item 2}
    (member : x ∈ c.shared.zip.queues i) :
    x.index = i ∧ x ∈ c.shared.zip.startedItems ∧ x ∉ c.shared.zip.itemCompletions.map (·.1) := by
  have inv := reads_zip reads
  have handed := reads_handed reads
  have index := inv.known.queued i x member
  have here : 0 < ((zipOf c).shared.queues x.index).count x := List.count_pos_iff.mpr (index ▸ member)
  have placed := inv.placed x
  rw [ZipPairing.places,ZipPairing.kept] at placed
  have completed : x ∈ (zipOf c).shared.completedItems := by
    by_contra open_
    rw [if_neg open_] at placed
    omega
  rw [if_pos completed] at placed
  refine ⟨index,?_,fun done => ?_⟩
  · have before := (handed.completed x).mp completed
    have behind := (handed.behind x.index).1
    exact (handed.started x).mpr (by omega)
  · have : 0 < ((zipOf c).shared.itemCompletions.map (·.1)).count x := List.count_pos_iff.mpr done
    omega

/-- The sequence that completes first has no more items, and all of them are in tuples. -/
theorem first_child (reads : Reads buffers offsets w c stack) (out : Outside isCallout c stack) {i : Fin 2}
    (ended : c.shared.goesOn i = true ∧ c.shared.position i = (c.shared.items i).length ∨
      c.shared.itemDone i Completion.isStopped = true)
    (closed : ¬ Zip.ItemsOpen c.shared.zip i) (first : c.shared.zip.completedChildren = []) :
    c.shared.zip.emitted.length = min buffers.length offsets.length := by
  have handed := reads_handed reads
  have ending := reads_ending reads
  have goes : c.shared.zip.stopRequested = false := by
    by_contra stop
    exact ending.requested (by simpa using stop) first
  have all : c.shared.position i = (itemsOf buffers offsets i).length := by
    rcases ended with ⟨_,all⟩ | stopped
    · rwa [reads_items reads] at all
    · obtain ⟨signal,member,such⟩ := itemDone_mem stopped
      cases signal with
      | stopped => exact absurd (ending.stopped _ member) (by simp [goes])
      | _ => cases such
  have done : ∀ x ∈ c.shared.zip.startedItems, x.index = i → x ∈ c.shared.zip.itemCompletions.map (·.1) := by
    intro x started index
    by_contra open_
    exact closed ⟨x,started,index,open_⟩
  have arrived : (c.shared.zip.arrived i).length = (itemsOf buffers offsets i).length := by
    have behind := handed.behind i
    rw [zipOf_shared] at behind
    by_contra fewer
    have last : (⟨i,c.shared.position i - 1⟩ : Item 2) ∈ c.shared.zip.startedItems :=
      (handed.started _).mpr (by simp only; omega)
    have := (handed.completed _).mp (completed_of_completions (reads_zip reads) (done _ last rfl))
    rw [zipOf_shared] at this
    simp only at this
    omega
  have empty : c.shared.zip.queues i = [] := by
    refine List.eq_nil_iff_forall_not_mem.mpr fun x member => ?_
    obtain ⟨index,started,open_⟩ := waiting_item reads member
    exact open_ (done x started index)
  have settled := ((reads_zip reads).outside (zip_outside (nested_parts reads).1 out)).1
  have paired := congrArg List.length (settled.paired goes i)
  simp only [List.length_map,List.append_nil,List.length_append,ZipPairing.tuples,ZipPairing.waiting,zipOf_shared,empty,
    List.length_nil,Nat.add_zero] at paired
  have least : min buffers.length offsets.length ≤ (itemsOf buffers offsets i).length := min_le_items i
  have most := emitted_le_min reads
  omega

/-- Once a sequence has completed, there is a tuple for every buffer that has an offset. -/
theorem reads_all (reads : Reads buffers offsets w c stack) :
    c.shared.zip.completedChildren ≠ [] → c.shared.zip.emitted.length = min buffers.length offsets.length := by
  refine Reads.zip_invariant (J := fun d _ => d.shared.completedChildren ≠ [] →
    d.shared.emitted.length = min buffers.length offsets.length) (fun some => absurd rfl some) ?_ ?_ reads
  · intro now later stack p i rest z new _ after ih _ ran same _ some
    have frame := ran_frame (ran_of_zipExec ran)
    have before := ih (frame.completedChildren ▸ some)
    have grows : now.shared.zip.emitted.length ≤ z.emitted.length := frame.emitted.length_le
    have most := emitted_le_min after
    rw [← zipOf_shared,same] at most
    rw [put_shared] at most ⊢
    rw [zipOf_shared] at before
    omega
  · intro now later stack p e z new position before _ ih out supplied _ _ _ _
    cases supplied with
    | childCompletes i signal fine ended open_ closed =>
      intro _
      by_cases first : now.shared.zip.completedChildren = []
      · exact first_child before out ended closed first
      · exact ih first
    | _ => exact ih

end SendersIo.ReadBatchedItems
