import Mathlib.Data.List.Basic
import Mathlib.Data.List.Nodup
import Mathlib.Data.List.Perm.Basic
import SendersIo.Interleaving
import SendersIo.Signals

/-!
`reduce` is `last` over `scan`. An item that completes with a value adds it to
the running total of `scan_data`, under its mutex, and then stores the total it
got into the `result_type` of `last`, under another mutex. Between the two steps
another item can do both of its own.
-/
namespace SendersIo.Reduce
open SendersIo.Interleaving SendersIo.Signals
set_option linter.unusedSimpArgs false

variable {Tp Arg Error : Type}

/-- `scan_data`, `last_::result_type` and what happened to them so far: how every
    item completed, the arguments in the order in which they were added to the
    total, the items in the order in which they stored a result, those whose
    receiver was completed and how the source completed. -/
structure Operation (Tp Arg Error : Type) where
  value : Tp
  result : Option (Completion Tp Error)
  items : List (Nat × Completion Arg Error)
  scanned : List (Nat × Arg)
  stored : List Nat
  finished : List Nat
  source : Option (Signal Error)
  completions : List (Completion Tp Error)

inductive Party where
  | item (x : Nat)
  | source
  deriving DecidableEq

/-- The atomic steps of the handlers: `scan_data::emplace`, `result_type::emplace`,
    `result_type::visit_result` and the completions of the receivers. -/
inductive Instr (Tp Arg Error : Type) where
  | emplaceTotal (a : Arg)
  | emplaceResult (r : Completion Tp Error)
  | completeItem (signal : Signal Error)
  | visitResult
  | complete (r : Completion Tp Error)

inductive Event (Arg Error : Type) where
  | item (x : Nat) (r : Completion Arg Error)
  | source (signal : Signal Error)

/-- `last_::item_receiver`: the result is stored and the item receiver completed;
    an error is stored, and the receiver gets a stop instead of it. -/
def lastHandler : Completion Tp Error → List (Instr Tp Arg Error)
  | .value v => [.emplaceResult (.value v),.completeItem (.value ())]
  | .error e => [.emplaceResult (.error e),.completeItem .stopped]
  | .stopped => [.emplaceResult .stopped,.completeItem .stopped]

/-- `scan_::item_receiver`: a value goes through `scan_data`. -/
def scanHandler : Completion Arg Error → List (Instr Tp Arg Error)
  | .value a => [.emplaceTotal a]
  | .error e => lastHandler (.error e)
  | .stopped => lastHandler .stopped

/-- The receivers of the source sequence, of `scan` and then of `last`. -/
def sourceHandler : Signal Error → List (Instr Tp Arg Error)
  | .value _ => [.visitResult]
  | .error e => [.complete (.error e)]
  | .stopped => [.complete .stopped]

def exec (fn : Tp → Arg → Except Error Tp) : Party → Instr Tp Arg Error → Operation Tp Arg Error →
    List (Operation Tp Arg Error × List (Instr Tp Arg Error))
  | .item x,.emplaceTotal a,s =>
    match fn s.value a with
    | .ok v => [({ s with value := v, scanned := s.scanned ++ [(x,a)] },lastHandler (.value v))]
    | .error e => [(s,lastHandler (.error e))]
  | .item x,.emplaceResult r,s => [({ s with result := some r, stored := s.stored ++ [x] },[])]
  | .item x,.completeItem _,s => [({ s with finished := s.finished ++ [x] },[])]
  | .source,.visitResult,s =>
    match s.result with
    | some r => [({ s with result := none },[.complete r])]
    -- `result_` was never constructed
    | none => []
  | .source,.complete r,s => [({ s with completions := s.completions ++ [r] },[])]
  | _,_,_ => []

/-- An item completes once; the source sequence completes once, after the
    receivers of all its items. -/
def accept : Event Arg Error → Operation Tp Arg Error →
    Option (Operation Tp Arg Error × List (Instr Tp Arg Error))
  | .item x r,s =>
    if s.source.isNone ∧ x ∉ s.items.map Prod.fst then
      some ({ s with items := s.items ++ [(x,r)] },scanHandler r)
    else none
  | .source signal,s =>
    if s.source.isNone ∧ ∀ item ∈ s.items, item.1 ∈ s.finished then
      some ({ s with source := some signal },sourceHandler signal)
    else none

def machine (fn : Tp → Arg → Except Error Tp) :
    Machine Party (Operation Tp Arg Error) (Instr Tp Arg Error) (Event Arg Error) where
  exec := exec fn
  accept := accept
  party
    | .item x _ => .item x
    | .source _ => .source

def initial (init : Tp) : Config Party (Operation Tp Arg Error) (Instr Tp Arg Error) where
  shared := ⟨init,none,[],[],[],[],none,[]⟩
  threads _ := []

/-! ### The items of a reduction -/

/-- The runs of `reduce` over items that all complete with a value, whose source
    completes with `set_value`. -/
def Values (_ : Config Party (Operation Tp Arg Error) (Instr Tp Arg Error)) : Label Party (Event Arg Error) → Prop
  | .call (.item _ (.error _)) | .call (.item _ .stopped) => False
  | .call (.source (.error _)) | .call (.source .stopped) => False
  | _ => True

/-- The runs in which an item completes only after the one before it is done. -/
def OneByOne (c : Config Party (Operation Tp Arg Error) (Instr Tp Arg Error)) (l : Label Party (Event Arg Error)) :
    Prop :=
  Values c l ∧ ∀ x r, l = .call (.item x r) → ∀ p, c.threads p = []

/-- The values of the items, each with its item, in the order of their completions. -/
def Operation.arrived (s : Operation Tp Arg Error) : List (Nat × Arg) :=
  s.items.filterMap fun
    | (x,.value a) => some (x,a)
    | _ => none

/-- The values of the items, in the order of their completions. -/
def Operation.values (s : Operation Tp Arg Error) : List Arg := s.arrived.map Prod.snd

/-- The arguments up to the one of the given item. -/
def through (x : Nat) : List (Nat × Arg) → List Arg
  | [] => []
  | (y,a) :: rest => a :: if y = x then [] else through x rest

/-- The arguments after the one of the given item. -/
def after (x : Nat) : List (Nat × Arg) → List Arg
  | [] => []
  | (y,_) :: rest => if y = x then rest.map Prod.snd else after x rest

theorem through_append_after (x : Nat) (l : List (Nat × Arg)) : through x l ++ after x l = l.map Prod.snd := by
  induction l with
  | nil => rfl
  | cons head rest ih =>
    obtain ⟨y,a⟩ := head
    by_cases same : y = x
    · simp [through,after,same]
    · simp [through,after,same,ih]

/-- What comes later does not change what an item has got. -/
theorem through_append {x : Nat} {l : List (Nat × Arg)} (member : x ∈ l.map Prod.fst) (more : List (Nat × Arg)) :
    through x (l ++ more) = through x l := by
  induction l with
  | nil => simp at member
  | cons head rest ih =>
    obtain ⟨y,a⟩ := head
    by_cases same : y = x
    · simp [through,same]
    · have later : x ∈ rest.map Prod.fst := by simpa [Ne.symm same] using member
      simp [through,same,ih later]

theorem through_last {x : Nat} {a : Arg} {l : List (Nat × Arg)} (absent : x ∉ l.map Prod.fst) :
    through x (l ++ [(x,a)]) = l.map Prod.snd ++ [a] := by
  induction l with
  | nil => simp [through]
  | cons head rest ih =>
    obtain ⟨y,b⟩ := head
    obtain ⟨other,later⟩ : ¬ x = y ∧ x ∉ rest.map Prod.fst := by simpa using absent
    simp [through,Ne.symm other,ih later]

theorem after_last {x : Nat} {a : Arg} {l : List (Nat × Arg)} (absent : x ∉ l.map Prod.fst) :
    after x (l ++ [(x,a)]) = [] := by
  have split := through_append_after x (l ++ [(x,a)])
  rw [through_last absent] at split
  simpa using split

/-- The arguments that were added to the total after the one of the item that
    stored its total last. -/
def Operation.overtaken (s : Operation Tp Arg Error) : List Arg :=
  match s.stored.getLast? with
  | some x => after x s.scanned
  | none => []

/-- The arguments up to the one of the item that stored its total last. -/
def Operation.kept (s : Operation Tp Arg Error) : List Arg :=
  match s.stored.getLast? with
  | some x => through x s.scanned
  | none => s.scanned.map Prod.snd

theorem kept_append_overtaken (s : Operation Tp Arg Error) : s.kept ++ s.overtaken = s.scanned.map Prod.snd := by
  simp only [Operation.kept,Operation.overtaken]
  cases s.stored.getLast? with
  | none => simp
  | some x => exact through_append_after x s.scanned

/-- Adding the arguments that were overtaken leaves the total as it is. -/
def Operation.OvertakenNeutral (f : Tp → Arg → Tp) (init : Tp) (s : Operation Tp Arg Error) : Prop :=
  s.overtaken.foldl f (s.kept.foldl f init) = s.kept.foldl f init

/-! ### What an item and the source have left -/

section
variable (f : Tp → Arg → Tp) (init : Tp)

/-- A function that does not throw. -/
def nothrow : Tp → Arg → Except Error Tp := fun v a => .ok (f v a)

/-- The total that the result of `last` holds. -/
def Operation.lastTotal (s : Operation Tp Arg Error) : Option (Completion Tp Error) :=
  s.stored.getLast?.map fun x => .value ((through x s.scanned).foldl f init)

/-- What an item has left. -/
inductive ItemLeft (s : Operation Tp Arg Error) (x : Nat) : List (Instr Tp Arg Error) → Prop
  | running : x ∉ s.arrived.map Prod.fst → x ∉ s.finished → ItemLeft s x []
  | scanning (a : Arg) : (x,a) ∈ s.arrived → x ∉ s.scanned.map Prod.fst → x ∉ s.finished →
      ItemLeft s x [.emplaceTotal a]
  | storing : x ∈ s.scanned.map Prod.fst → x ∉ s.stored → x ∉ s.finished →
      ItemLeft s x (lastHandler (.value ((through x s.scanned).foldl f init)))
  | finishing : x ∈ s.stored → x ∉ s.finished → ItemLeft s x [.completeItem (.value ())]
  | finished : x ∈ s.stored → x ∈ s.finished → ItemLeft s x []

/-- What the source sequence has left, and how far the completion of `last` is. -/
inductive SourceLeft (s : Operation Tp Arg Error) : List (Instr Tp Arg Error) → Prop
  | running : s.source = none → s.completions = [] → s.result = s.lastTotal f init → SourceLeft s []
  | visiting : s.source = some (.value ()) → (∀ x ∈ s.arrived.map Prod.fst, x ∈ s.finished) → s.completions = [] →
      s.result = s.lastTotal f init → SourceLeft s [.visitResult]
  | completing (r : Completion Tp Error) : s.source = some (.value ()) →
      (∀ x ∈ s.arrived.map Prod.fst, x ∈ s.finished) → s.completions = [] → s.lastTotal f init = some r →
      SourceLeft s [.complete r]
  | done (r : Completion Tp Error) : s.source = some (.value ()) →
      (∀ x ∈ s.arrived.map Prod.fst, x ∈ s.finished) → s.completions = [r] → s.lastTotal f init = some r →
      SourceLeft s []

structure Invariant (c : Config Party (Operation Tp Arg Error) (Instr Tp Arg Error)) : Prop where
  total : c.shared.value = (c.shared.scanned.map Prod.snd).foldl f init
  items : c.shared.items = c.shared.arrived.map fun (x,a) => (x,.value a)
  distinct : (c.shared.arrived.map Prod.fst).Nodup
  scanned : ∀ item ∈ c.shared.scanned, item ∈ c.shared.arrived
  order : (c.shared.scanned.map Prod.fst).Nodup
  stored : ∀ x ∈ c.shared.stored, x ∈ c.shared.scanned.map Prod.fst
  left : ∀ x, ItemLeft f init c.shared x (c.threads (.item x))
  source : SourceLeft f init c.shared (c.threads .source)

end

section
variable {f : Tp → Arg → Tp} {init : Tp} {c : Config Party (Operation Tp Arg Error) (Instr Tp Arg Error)}

theorem invariant_initial : Invariant f init (initial init : Config Party (Operation Tp Arg Error) _) where
  total := rfl
  items := rfl
  distinct := List.nodup_nil
  scanned := by simp [initial]
  order := List.nodup_nil
  stored := by simp [initial]
  left x := .running (by simp [initial,Operation.arrived]) (by simp [initial])
  source := .running rfl rfl rfl

/-- While an item that arrived is not done, the source has not completed. -/
theorem Invariant.open (inv : Invariant f init c) {x : Nat} (member : x ∈ c.shared.arrived.map Prod.fst)
    (unfinished : x ∉ c.shared.finished) :
    c.shared.source = none ∧ c.shared.completions = [] ∧ c.shared.result = c.shared.lastTotal f init ∧
      c.threads .source = [] := by
  have source := inv.source
  generalize c.threads .source = prog at source ⊢
  cases source with
  | running unset empty result => exact ⟨unset,empty,result,rfl⟩
  | visiting _ all => exact absurd (all x member) unfinished
  | completing _ _ all => exact absurd (all x member) unfinished
  | done _ _ all => exact absurd (all x member) unfinished

theorem Invariant.arrived_of_scanned (inv : Invariant f init c) {x : Nat}
    (member : x ∈ c.shared.scanned.map Prod.fst) : x ∈ c.shared.arrived.map Prod.fst := by
  obtain ⟨item,at_item,rfl⟩ := List.mem_map.mp member
  exact List.mem_map_of_mem (inv.scanned item at_item)

/-- An item adds its argument to the total. -/
theorem scan_keeps (inv : Invariant f init c) {x : Nat} {a : Arg} (left : c.threads (.item x) = [.emplaceTotal a])
    {s : Operation Tp Arg Error} {new : List (Instr Tp Arg Error)}
    (ran : (s,new) ∈ exec (nothrow f) (.item x) (.emplaceTotal a) c.shared) :
    Invariant f init (c.put (.item x) s (new ++ [])) := by
  obtain ⟨rfl,rfl⟩ : s = _ ∧ new = _ := by simpa [exec,nothrow] using ran
  have at_x := inv.left x
  rw [left] at at_x
  cases at_x with
  | scanning _ member absent unfinished =>
    have arrived : x ∈ c.shared.arrived.map Prod.fst := List.mem_map_of_mem (f := Prod.fst) member
    obtain ⟨unset,empty,result,idle⟩ := inv.open arrived unfinished
    have fresh : x ∉ c.shared.stored := fun at_stored => absent (inv.stored x at_stored)
    have last : c.shared.lastTotal f init = Operation.lastTotal f init { c.shared with
        value := f c.shared.value a, scanned := c.shared.scanned ++ [(x,a)] } := by
      simp only [Operation.lastTotal]
      cases at_last : c.shared.stored.getLast? with
      | none => rfl
      | some y =>
        have known := inv.stored y (List.mem_of_getLast? at_last)
        simp only [Option.map_some,through_append known]
    have threads : ∀ y, y ≠ x → (c.put (.item x) { c.shared with
        value := f c.shared.value a, scanned := c.shared.scanned ++ [(x,a)] }
        (lastHandler (.value (f c.shared.value a)) ++ [])).threads (.item y) = c.threads (.item y) :=
      fun y other => put_threads_ne c (by simpa using other) _ _
    refine ⟨?_,inv.items,inv.distinct,?_,?_,?_,?_,?_⟩
    · simp [inv.total]
    · intro item at_item
      rcases List.mem_append.mp at_item with earlier | now
      · exact inv.scanned item earlier
      · rw [List.mem_singleton.mp now]
        exact member
    · simpa [List.nodup_append] using ⟨inv.order,fun y b at_y => by
        rintro rfl
        exact absent (List.mem_map_of_mem (f := Prod.fst) at_y)⟩
    · intro y at_y
      simpa using .inl (by simpa using inv.stored y at_y)
    · intro y
      by_cases same : y = x
      · subst same
        rw [put_threads_self,List.append_nil]
        have got : f c.shared.value a = (through y (c.shared.scanned ++ [(y,a)])).foldl f init := by
          rw [through_last absent,inv.total]
          simp
        rw [got]
        exact .storing (by simp) fresh unfinished
      · rw [threads y same]
        have at_y := inv.left y
        generalize c.threads (.item y) = prog at at_y ⊢
        cases at_y with
        | running out open_ => exact .running out open_
        | scanning b in_arrived out open_ => exact .scanning b in_arrived (by simpa [same] using out) open_
        | storing known out open_ =>
          rw [← through_append known [(x,a)]]
          exact .storing (by simpa using .inl (by simpa using known)) out open_
        | finishing known open_ => exact .finishing known open_
        | finished known closed => exact .finished known closed
    · rw [put_threads_ne c (by simp),idle]
      exact .running unset empty (result.trans last)

/-- An item stores the total it has got. -/
theorem store_keeps (inv : Invariant f init c) {x : Nat} {r : Completion Tp Error}
    {rest : List (Instr Tp Arg Error)} (left : c.threads (.item x) = .emplaceResult r :: rest)
    {s : Operation Tp Arg Error} {new : List (Instr Tp Arg Error)}
    (ran : (s,new) ∈ exec (nothrow f) (.item x) (.emplaceResult r) c.shared) :
    Invariant f init (c.put (.item x) s (new ++ rest)) := by
  obtain ⟨rfl,rfl⟩ : s = _ ∧ new = _ := by simpa [exec] using ran
  have at_x := inv.left x
  rw [left] at at_x
  cases at_x with
  | storing known fresh unfinished =>
    obtain ⟨unset,empty,_,idle⟩ := inv.open (inv.arrived_of_scanned known) unfinished
    refine ⟨inv.total,inv.items,inv.distinct,inv.scanned,inv.order,?_,?_,?_⟩
    · intro y at_y
      rcases List.mem_append.mp at_y with earlier | now
      · exact inv.stored y earlier
      · rw [List.mem_singleton.mp now]
        exact known
    · intro y
      by_cases same : y = x
      · subst same
        rw [put_threads_self]
        exact .finishing (by simp) unfinished
      · rw [put_threads_ne c (by simpa using same)]
        have at_y := inv.left y
        generalize c.threads (.item y) = prog at at_y ⊢
        cases at_y with
        | running out open_ => exact .running out open_
        | scanning b in_arrived out open_ => exact .scanning b in_arrived out open_
        | storing known out open_ => exact .storing known (by simpa [same] using out) open_
        | finishing known open_ => exact .finishing (by simpa using .inl known) open_
        | finished known closed => exact .finished (by simpa using .inl known) closed
    · rw [put_threads_ne c (by simp),idle]
      exact .running unset empty (by simp [Operation.lastTotal])

/-- The receiver of an item is completed. -/
theorem finish_keeps (inv : Invariant f init c) {x : Nat} {signal : Signal Error}
    {rest : List (Instr Tp Arg Error)} (left : c.threads (.item x) = .completeItem signal :: rest)
    {s : Operation Tp Arg Error} {new : List (Instr Tp Arg Error)}
    (ran : (s,new) ∈ exec (nothrow f) (.item x) (.completeItem signal) c.shared) :
    Invariant f init (c.put (.item x) s (new ++ rest)) := by
  obtain ⟨rfl,rfl⟩ : s = _ ∧ new = _ := by simpa [exec] using ran
  have at_x := inv.left x
  rw [left] at at_x
  cases at_x with
  | finishing known unfinished =>
    obtain ⟨unset,empty,result,idle⟩ := inv.open (inv.arrived_of_scanned (inv.stored x known)) unfinished
    refine ⟨inv.total,inv.items,inv.distinct,inv.scanned,inv.order,inv.stored,?_,?_⟩
    · intro y
      by_cases same : y = x
      · subst same
        rw [put_threads_self]
        exact .finished known (by simp)
      · rw [put_threads_ne c (by simpa using same)]
        have at_y := inv.left y
        generalize c.threads (.item y) = prog at at_y ⊢
        cases at_y with
        | running out open_ => exact .running out (by simpa [same] using open_)
        | scanning b in_arrived out open_ => exact .scanning b in_arrived out (by simpa [same] using open_)
        | storing known out open_ => exact .storing known out (by simpa [same] using open_)
        | finishing known open_ => exact .finishing known (by simpa [same] using open_)
        | finished known closed => exact .finished known (by simpa using .inl closed)
    · rw [put_threads_ne c (by simp),idle]
      exact .running unset empty result

/-- What the source does changes nothing that the items have left. -/
theorem source_keeps (inv : Invariant f init c) {s : Operation Tp Arg Error} {prog : List (Instr Tp Arg Error)}
    (value : s.value = c.shared.value) (items : s.items = c.shared.items) (scanned : s.scanned = c.shared.scanned)
    (stored : s.stored = c.shared.stored) (finished : s.finished = c.shared.finished)
    (source : SourceLeft f init s prog) : Invariant f init (c.put .source s prog) := by
  have arrived : s.arrived = c.shared.arrived := by simp only [Operation.arrived,items]
  refine ⟨?_,?_,?_,?_,?_,?_,?_,?_⟩
  · simpa only [put_shared,value,scanned] using inv.total
  · simpa only [put_shared,items,arrived] using inv.items
  · simpa only [put_shared,arrived] using inv.distinct
  · simpa only [put_shared,arrived,scanned] using inv.scanned
  · simpa only [put_shared,scanned] using inv.order
  · simpa only [put_shared,scanned,stored] using inv.stored
  · intro y
    rw [put_threads_ne c (by simp),put_shared]
    have at_y := inv.left y
    generalize c.threads (.item y) = prog at at_y ⊢
    cases at_y with
    | running out open_ => exact .running (by rwa [arrived]) (by rwa [finished])
    | scanning b in_arrived out open_ =>
      exact .scanning b (by rwa [arrived]) (by rwa [scanned]) (by rwa [finished])
    | storing known out open_ =>
      rw [← scanned]
      exact .storing (by rwa [scanned]) (by rwa [stored]) (by rwa [finished])
    | finishing known open_ => exact .finishing (by rwa [stored]) (by rwa [finished])
    | finished known closed => exact .finished (by rwa [stored]) (by rwa [finished])
  · simpa only [put_shared,put_threads_self] using source

theorem run_keeps (inv : Invariant f init c) {p : Party} {i : Instr Tp Arg Error} {rest : List (Instr Tp Arg Error)}
    (left : c.threads p = i :: rest) {s : Operation Tp Arg Error} {new : List (Instr Tp Arg Error)}
    (ran : (s,new) ∈ exec (nothrow f) p i c.shared) : Invariant f init (c.put p s (new ++ rest)) := by
  cases p with
  | item x =>
    cases i with
    | emplaceTotal a =>
      have at_x := inv.left x
      rw [left] at at_x
      cases at_x
      exact scan_keeps inv left ran
    | emplaceResult r => exact store_keeps inv left ran
    | completeItem signal => exact finish_keeps inv left ran
    | visitResult => simp [exec] at ran
    | complete r => simp [exec] at ran
  | source =>
    have source := inv.source
    rw [left] at source
    cases source with
    | visiting unset all empty result =>
      cases held : c.shared.lastTotal f init with
      | none => simp [exec,result,held] at ran
      | some r =>
        obtain ⟨rfl,rfl⟩ : s = _ ∧ new = _ := by simpa [exec,result,held] using ran
        exact source_keeps inv rfl rfl rfl rfl rfl (.completing r unset all empty held)
    | completing r unset all empty held =>
      obtain ⟨rfl,rfl⟩ : s = _ ∧ new = _ := by simpa [exec] using ran
      exact source_keeps inv rfl rfl rfl rfl rfl (.done r unset all (by simp [empty]) held)

theorem arrived_append (s : Operation Tp Arg Error) (x : Nat) (a : Arg) :
    Operation.arrived { s with items := s.items ++ [(x,.value a)] } = s.arrived ++ [(x,a)] := by
  simp [Operation.arrived]

theorem ids_items (inv : Invariant f init c) : c.shared.items.map Prod.fst = c.shared.arrived.map Prod.fst := by
  rw [inv.items,List.map_map]
  rfl

/-- An item completes with a value. -/
theorem item_keeps (inv : Invariant f init c) {x : Nat} {a : Arg} {s : Operation Tp Arg Error}
    {prog : List (Instr Tp Arg Error)} (idle : c.threads (.item x) = [])
    (accepted : accept (.item x (.value a)) c.shared = some (s,prog)) :
    Invariant f init (c.put (.item x) s prog) := by
  obtain ⟨⟨unset,absent⟩,rfl,rfl⟩ :
      (c.shared.source = none ∧ x ∉ c.shared.items.map Prod.fst) ∧
        { c.shared with items := c.shared.items ++ [(x,.value a)] } = s ∧ [.emplaceTotal a] = prog := by
    simpa [accept,scanHandler] using accepted
  rw [ids_items inv] at absent
  have unscanned : x ∉ c.shared.scanned.map Prod.fst := fun known => absent (inv.arrived_of_scanned known)
  have source := inv.source
  refine ⟨inv.total,?_,?_,?_,inv.order,inv.stored,?_,?_⟩
  · simp only [put_shared,arrived_append,List.map_append,List.map_cons,List.map_nil]
    rw [← inv.items]
  · simp only [put_shared,arrived_append,List.map_append,List.map_cons,List.map_nil]
    exact inv.distinct.append (List.nodup_singleton x) (by simpa using absent)
  · intro item at_item
    simp only [put_shared,arrived_append]
    exact List.mem_append_left _ (inv.scanned item at_item)
  · intro y
    have at_y := inv.left y
    by_cases same : y = x
    · subst same
      rw [put_threads_self]
      rw [idle] at at_y
      cases at_y with
      | running _ unfinished => exact .scanning a (by simp [arrived_append]) unscanned unfinished
      | finished known => exact absurd (inv.stored y known) unscanned
    · rw [put_threads_ne c (by simpa using same)]
      generalize c.threads (.item y) = prog at at_y ⊢
      cases at_y with
      | running out open_ => exact .running (by simpa [arrived_append,same] using out) open_
      | scanning b in_arrived out open_ => exact .scanning b (by simp [arrived_append,in_arrived]) out open_
      | storing known out open_ => exact .storing known out open_
      | finishing known open_ => exact .finishing known open_
      | finished known closed => exact .finished known closed
  · rw [put_threads_ne c (by simp)]
    generalize c.threads .source = prog at source ⊢
    cases source with
    | running _ empty result => exact .running unset empty result
    | visiting set_ => simp [unset] at set_
    | completing _ set_ => simp [unset] at set_
    | done _ set_ => simp [unset] at set_

theorem call_keeps (inv : Invariant f init c) {e : Event Arg Error} {s : Operation Tp Arg Error}
    {prog : List (Instr Tp Arg Error)} (values : Values c (.call e))
    (idle : c.threads ((machine (nothrow f)).party e) = []) (accepted : accept e c.shared = some (s,prog)) :
    Invariant f init (c.put ((machine (nothrow f)).party e) s prog) := by
  cases e with
  | item x r =>
    cases r with
    | value a => exact item_keeps inv idle accepted
    | error e => exact values.elim
    | stopped => exact values.elim
  | source signal =>
    cases signal with
    | value u =>
      obtain ⟨⟨unset,all⟩,rfl,rfl⟩ :
          (c.shared.source = none ∧ ∀ item ∈ c.shared.items, item.1 ∈ c.shared.finished) ∧
            { c.shared with source := some (.value u) } = s ∧ [.visitResult] = prog := by
        simpa [accept,sourceHandler] using accepted
      have ended : ∀ x ∈ c.shared.arrived.map Prod.fst, x ∈ c.shared.finished := by
        rw [← ids_items inv]
        intro x member
        obtain ⟨item,at_item,rfl⟩ := List.mem_map.mp member
        exact all item at_item
      have source := inv.source
      generalize c.threads .source = prog at source
      cases source with
      | running _ empty result => exact source_keeps inv rfl rfl rfl rfl rfl (.visiting rfl ended empty result)
      | visiting set_ => simp [unset] at set_
      | completing _ set_ => simp [unset] at set_
      | done _ set_ => simp [unset] at set_
    | error e => exact values.elim
    | stopped => exact values.elim

theorem invariant_reach (reach : Reach (machine (nothrow f)) Values (initial init) c) : Invariant f init c :=
  reach.invariant invariant_initial (fun _ _ _ _ _ _ inv _ left ran => run_keeps inv left ran)
    (fun _ _ _ _ inv values idle accepted => call_keeps inv values idle accepted)

/-! ### The result of a reduction -/

/-- The source sequence has completed with `set_value` after some items, and its
    handler has returned. -/
def Ended (c : Config Party (Operation Tp Arg Error) (Instr Tp Arg Error)) : Prop :=
  c.shared.source = some (.value ()) ∧ c.shared.items ≠ [] ∧ c.threads .source = []

/-- When the source has completed, every item that arrived has stored a total. -/
theorem Invariant.stored_of_arrived (inv : Invariant f init c)
    (all : ∀ x ∈ c.shared.arrived.map Prod.fst, x ∈ c.shared.finished) {x : Nat}
    (member : x ∈ c.shared.arrived.map Prod.fst) : x ∈ c.shared.stored := by
  have closed := all x member
  have left := inv.left x
  generalize c.threads (.item x) = prog at left
  cases left with
  | running out => exact absurd member out
  | scanning _ _ _ unfinished => exact absurd closed unfinished
  | storing _ _ unfinished => exact absurd closed unfinished
  | finishing _ unfinished => exact absurd closed unfinished
  | finished known => exact known

/-- When all items have stored, all arguments have been added, in some order. -/
theorem Invariant.scanned_perm (inv : Invariant f init c)
    (all : ∀ x ∈ c.shared.arrived.map Prod.fst, x ∈ c.shared.stored) : c.shared.scanned.Perm c.shared.arrived := by
  refine (List.perm_ext_iff_of_nodup (.of_map _ inv.order) (.of_map _ inv.distinct)).mpr fun item => ?_
  refine ⟨inv.scanned item,fun member => ?_⟩
  have known := inv.stored item.1 (all item.1 (List.mem_map_of_mem member))
  obtain ⟨other,at_other,same⟩ := List.mem_map.mp known
  rwa [← List.inj_on_of_nodup_map inv.distinct (inv.scanned other at_other) member same]

/-- The source's handler completes the receiver: it finds a result. -/
theorem Invariant.visit_progress (inv : Invariant f init c) (nonempty : c.shared.items ≠ [])
    (left : c.threads .source ≠ []) : (machine (nothrow f)).next c (.run .source) ≠ [] := by
  have source := inv.source
  cases at_source : c.threads .source with
  | nil => exact absurd at_source left
  | cons i rest =>
    rw [at_source] at source
    cases source with
    | visiting _ all _ result =>
      have arrived : c.shared.arrived ≠ [] := by
        intro empty
        exact nonempty (by rw [inv.items,empty]; rfl)
      obtain ⟨item,at_item⟩ := List.exists_mem_of_ne_nil _ arrived
      have known := inv.stored_of_arrived all (List.mem_map_of_mem (f := Prod.fst) at_item)
      have last := List.getLast?_eq_getLast_of_ne_nil (List.ne_nil_of_mem known)
      simp [Machine.next,at_source,machine,exec,result,Operation.lastTotal,last]
    | completing => simp [Machine.next,at_source,machine,exec]

/-- The receiver gets the total up to the item that stored last. -/
theorem Invariant.outcome (inv : Invariant f init c) (ended : Ended c) :
    c.shared.completions = [.value (c.shared.kept.foldl f init)] ∧
      ∀ x ∈ c.shared.arrived.map Prod.fst, x ∈ c.shared.stored := by
  obtain ⟨set_,_,idle⟩ := ended
  have source := inv.source
  rw [idle] at source
  cases source with
  | running unset => simp [unset] at set_
  | done r _ all sent held =>
    refine ⟨?_,fun x => inv.stored_of_arrived all⟩
    rw [sent]
    simp only [Operation.lastTotal,Operation.kept] at held ⊢
    cases at_last : c.shared.stored.getLast? with
    | none => simp [at_last] at held
    | some x => simpa [at_last,eq_comm] using held

theorem foldl_scanned (s : Operation Tp Arg Error) :
    (s.scanned.map Prod.snd).foldl f init = s.overtaken.foldl f (s.kept.foldl f init) := by
  rw [← kept_append_overtaken,List.foldl_append]

/-- Nothing was overtaken when the item that added its argument last stored last. -/
theorem overtaken_nil {s : Operation Tp Arg Error} (order : (s.scanned.map Prod.fst).Nodup)
    (last : s.stored.getLast? = (s.scanned.map Prod.fst).getLast?) : s.overtaken = [] := by
  rcases List.eq_nil_or_concat s.scanned with empty | ⟨earlier,⟨x,a⟩,ends⟩
  · simp only [empty,List.map_nil,List.getLast?_nil] at last
    simp [Operation.overtaken,last]
  · rw [List.concat_eq_append] at ends
    simp only [ends,List.map_append,List.map_cons,List.map_nil,List.getLast?_concat] at last order
    have absent : x ∉ earlier.map Prod.fst := by
      intro member
      exact (List.nodup_append.mp order).2.2 x member x (by simp) rfl
    simp only [Operation.overtaken,last,ends]
    exact after_last absent

end

/-! ### Items that complete one after the other -/

section
variable {f : Tp → Arg → Tp} {init : Tp} {c : Config Party (Operation Tp Arg Error) (Instr Tp Arg Error)}

/-- At most the last item is not done, and the items before it have done
    everything in the order of their completions. -/
inductive Sequential (c : Config Party (Operation Tp Arg Error) (Instr Tp Arg Error)) : Prop
  | settled : c.shared.scanned = c.shared.arrived → c.shared.stored = c.shared.scanned.map Prod.fst → Sequential c
  | scanning (x : Nat) (a : Arg) : c.shared.arrived = c.shared.scanned ++ [(x,a)] →
      c.shared.stored = c.shared.scanned.map Prod.fst → c.threads (.item x) = [.emplaceTotal a] → Sequential c
  | storing (x : Nat) (r : Completion Tp Error) : c.shared.scanned = c.shared.arrived →
      c.shared.scanned.map Prod.fst = c.shared.stored ++ [x] →
      c.threads (.item x) = lastHandler r → Sequential c

/-- A step of an item: only the one that is not done adds or stores something. -/
theorem sequential_item (inv : Invariant f init c) (sequential : Sequential c) {x : Nat} {i : Instr Tp Arg Error}
    {rest : List (Instr Tp Arg Error)} (left : c.threads (.item x) = i :: rest) {s : Operation Tp Arg Error}
    {new : List (Instr Tp Arg Error)} (ran : (s,new) ∈ exec (nothrow f) (.item x) i c.shared) :
    Sequential (c.put (.item x) s (new ++ rest)) := by
  have at_x := inv.left x
  rw [left] at at_x
  have others : ∀ y, y ≠ x → (c.put (.item x) s (new ++ rest)).threads (.item y) = c.threads (.item y) :=
    fun y other => put_threads_ne c (by simpa using other) _ _
  cases at_x with
  | scanning a member absent _ =>
    obtain ⟨rfl,rfl⟩ : s = _ ∧ new = _ := by simpa [exec,nothrow] using ran
    cases sequential with
    | settled all _ => exact absurd (by rw [all]; exact List.mem_map_of_mem member) absent
    | scanning y b arrived stored at_y =>
      rw [arrived] at member
      obtain ⟨rfl,rfl⟩ : x = y ∧ a = b := by
        rcases List.mem_append.mp member with earlier | now
        · exact absurd (List.mem_map_of_mem earlier) absent
        · simpa using now
      exact .storing x (.value (f c.shared.value a)) arrived.symm (by simp [stored]) (by simp)
    | storing y r all _ _ => exact absurd (by rw [all]; exact List.mem_map_of_mem member) absent
  | storing known fresh _ =>
    obtain ⟨rfl,rfl⟩ : s = _ ∧ new = _ := by simpa [exec] using ran
    cases sequential with
    | settled _ stored => exact absurd (by rwa [stored]) fresh
    | scanning y b arrived stored at_y => exact absurd (by rwa [stored]) fresh
    | storing y r all stored at_y =>
      obtain rfl : x = y := by
        rw [stored] at known
        exact List.mem_singleton.mp ((List.mem_append.mp known).resolve_left fresh)
      exact .settled all stored.symm
  | finishing known _ =>
    obtain ⟨rfl,rfl⟩ : s = _ ∧ new = _ := by simpa [exec] using ran
    cases sequential with
    | settled all stored => exact .settled all stored
    | scanning y b arrived stored at_y =>
      refine .scanning y b arrived stored ((others y ?_).trans at_y)
      rintro rfl
      simp [at_y] at left
    | storing y r all stored at_y =>
      refine .storing y r all stored ((others y ?_).trans at_y)
      rintro rfl
      rw [at_y] at left
      cases r <;> simp [lastHandler] at left

theorem sequential_source (sequential : Sequential c) {s : Operation Tp Arg Error} {prog : List (Instr Tp Arg Error)}
    (items : s.items = c.shared.items) (scanned : s.scanned = c.shared.scanned)
    (stored : s.stored = c.shared.stored) : Sequential (c.put .source s prog) := by
  have arrived : s.arrived = c.shared.arrived := by simp only [Operation.arrived,items]
  have others : ∀ y, (c.put .source s prog).threads (.item y) = c.threads (.item y) :=
    fun y => put_threads_ne c (by simp) _ _
  cases sequential with
  | settled all order => exact .settled (by simpa [arrived,scanned] using all) (by simpa [stored,scanned] using order)
  | scanning y b last order at_y =>
    exact .scanning y b (by simpa [arrived,scanned] using last) (by simpa [stored,scanned] using order)
      ((others y).trans at_y)
  | storing y r all order at_y =>
    exact .storing y r (by simpa [arrived,scanned] using all) (by simpa [stored,scanned] using order)
      ((others y).trans at_y)

theorem source_frame {i : Instr Tp Arg Error} {s s' : Operation Tp Arg Error} {new : List (Instr Tp Arg Error)}
    (ran : (s',new) ∈ exec (nothrow f) .source i s) :
    s'.items = s.items ∧ s'.scanned = s.scanned ∧ s'.stored = s.stored := by
  cases i with
  | visitResult =>
    cases held : s.result with
    | none => simp [exec,held] at ran
    | some r =>
      obtain ⟨rfl,-⟩ : s' = _ ∧ new = _ := by simpa [exec,held] using ran
      exact ⟨rfl,rfl,rfl⟩
  | complete r =>
    obtain ⟨rfl,-⟩ : s' = _ ∧ new = _ := by simpa [exec] using ran
    exact ⟨rfl,rfl,rfl⟩
  | emplaceTotal a => simp [exec] at ran
  | emplaceResult r => simp [exec] at ran
  | completeItem signal => simp [exec] at ran

theorem sequential_call (sequential : Sequential c) {e : Event Arg Error} (allowed : OneByOne c (.call e))
    {s : Operation Tp Arg Error} {prog : List (Instr Tp Arg Error)} (accepted : accept e c.shared = some (s,prog)) :
    Sequential (c.put ((machine (nothrow f)).party e) s prog) := by
  cases e with
  | item x r =>
    have idle := allowed.2 x r rfl
    cases r with
    | value a =>
      obtain ⟨_,rfl,rfl⟩ :
          (c.shared.source = none ∧ x ∉ c.shared.items.map Prod.fst) ∧
            { c.shared with items := c.shared.items ++ [(x,.value a)] } = s ∧ [.emplaceTotal a] = prog := by
        simpa [accept,scanHandler] using accepted
      cases sequential with
      | settled all stored =>
        refine .scanning x a ?_ stored (put_threads_self c _ _ _)
        exact (arrived_append c.shared x a).trans (by rw [put_shared,all])
      | scanning y b _ _ at_y => simp [idle] at at_y
      | storing y r _ _ at_y => cases r <;> simp [idle,lastHandler] at at_y
    | error e => exact allowed.1.elim
    | stopped => exact allowed.1.elim
  | source signal =>
    simp only [accept] at accepted
    split at accepted
    · cases accepted
      exact sequential_source sequential rfl rfl rfl
    · cases accepted

/-- When all items have stored, they did so in the order of their completions. -/
theorem Sequential.settled_of_stored (sequential : Sequential c) (inv : Invariant f init c)
    (all : ∀ x ∈ c.shared.arrived.map Prod.fst, x ∈ c.shared.stored) :
    c.shared.scanned = c.shared.arrived ∧ c.shared.stored = c.shared.scanned.map Prod.fst := by
  cases sequential with
  | settled added stored => exact ⟨added,stored⟩
  | scanning x a arrived =>
    have lengths := (inv.scanned_perm all).length_eq
    simp [arrived] at lengths
  | storing x r added stored =>
    have member : x ∈ c.shared.stored := all x (by rw [← added,stored]; simp)
    have order := inv.order
    rw [stored] at order
    exact absurd rfl ((List.nodup_append.mp order).2.2 x member x (by simp))

theorem sequential_reach (reach : Reach (machine (nothrow f)) OneByOne (initial init) c) :
    Invariant f init c ∧ Sequential c :=
  reach.invariant (I := fun c => Invariant f init c ∧ Sequential c) ⟨invariant_initial,.settled rfl rfl⟩
    (fun c p i rest s new ⟨inv,sequential⟩ _ left ran => by
      refine ⟨run_keeps inv left ran,?_⟩
      cases p with
      | item x => exact sequential_item inv sequential left ran
      | source =>
        obtain ⟨items,scanned,stored⟩ := source_frame ran
        exact sequential_source sequential items scanned stored)
    (fun c e s prog ⟨inv,sequential⟩ allowed idle accepted =>
      ⟨call_keeps inv allowed.1 idle accepted,sequential_call sequential allowed accepted⟩)

end

/-- `reduce` completes its receiver once after the items of the sequence. For an
    associative and commutative function it gets the fold over all values if and
    only if the arguments overtaken by the last store leave the total as it is;
    items that complete one after the other are folded in order by any function. -/
theorem reduce_folds_items {Tp Arg Error : Type} (init : Tp) :
    (∀ op : Tp → Tp → Tp, Std.Associative op → Std.Commutative op →
      ∀ c : Config Party (Operation Tp Tp Error) (Instr Tp Tp Error),
        Reach (machine (nothrow op)) Values (initial init) c → Ended c →
          ∃ v, c.shared.completions = [.value v] ∧
            (v = c.shared.values.foldl op init ↔ c.shared.OvertakenNeutral op init)) ∧
    (∀ f : Tp → Arg → Tp, ∀ c : Config Party (Operation Tp Arg Error) (Instr Tp Arg Error),
      Reach (machine (nothrow f)) OneByOne (initial init) c → Ended c →
        c.shared.completions = [.value (c.shared.values.foldl f init)]) ∧
    ∀ f : Tp → Arg → Tp, ∀ c : Config Party (Operation Tp Arg Error) (Instr Tp Arg Error),
      Reach (machine (nothrow f)) Values (initial init) c → c.shared.items ≠ [] → c.threads .source ≠ [] →
        (machine (nothrow f)).next c (.run .source) ≠ [] := by
  refine ⟨fun op assoc comm c reach ended => ?_,fun f c reach ended => ?_,fun f c reach nonempty left => ?_⟩
  · have inv := invariant_reach reach
    obtain ⟨sent,all⟩ := inv.outcome ended
    have perm := inv.scanned_perm all
    refine ⟨_,sent,?_⟩
    have all : c.shared.values.foldl op init = c.shared.overtaken.foldl op (c.shared.kept.foldl op init) := by
      rw [← foldl_scanned]
      exact ((perm.map Prod.snd).foldl_eq init).symm
    rw [all,eq_comm]
    rfl
  · obtain ⟨inv,sequential⟩ := sequential_reach reach
    obtain ⟨sent,all⟩ := inv.outcome ended
    obtain ⟨added,stored⟩ := sequential.settled_of_stored inv all
    rw [sent,Operation.values,← added,foldl_scanned,overtaken_nil inv.order (by rw [stored])]
    rfl
  · exact (invariant_reach reach).visit_progress nonempty left

/-- `Values` of a step, computed. -/
def allValues : Label Party (Event Arg Error) → Bool
  | .call (.item _ (.error _)) | .call (.item _ .stopped) => false
  | .call (.source (.error _)) | .call (.source .stopped) => false
  | _ => true

theorem values_of_allValues (c : Config Party (Operation Tp Arg Error) (Instr Tp Arg Error))
    (l : Label Party (Event Arg Error)) (computed : allValues l = true) : Values c l := by
  unfold allValues at computed
  unfold Values
  split at computed <;> simp_all

/-- Two items whose steps alternate, the second item storing its total last. -/
theorem reduce_folds_items_two : ∃ c : Config Party (Operation Nat Nat Empty) (Instr Nat Nat Empty),
    Reach (machine (nothrow (· + ·))) Values (initial 0) c ∧ c.shared.completions = [.value 3] := by
  obtain ⟨c,reach,computed⟩ := exists_of_follow (machine (nothrow (· + ·))) Values
    (initial 0 : Config Party (Operation Nat Nat Empty) _) (fun _ l => allValues l) values_of_allValues
    [(.call (.item 0 (.value 1)),0),(.call (.item 1 (.value 2)),0),(.run (.item 0),0),(.run (.item 1),0),
      (.run (.item 0),0),(.run (.item 1),0),(.run (.item 0),0),(.run (.item 1),0),(.call (.source (.value ())),0),
      (.run .source,0),(.run .source,0)]
    (fun c => c.shared.source = some (.value ()) ∧ c.shared.items = [(0,.value 1),(1,.value 2)] ∧
      (c.threads .source).isEmpty ∧ c.shared.scanned = [(0,1),(1,2)] ∧ c.shared.stored = [0,1]) (by decide)
  obtain ⟨set_,items,idle,scanned,stored⟩ := of_decide_eq_true computed
  obtain ⟨v,sent,folded⟩ := (@reduce_folds_items Nat Nat Empty 0).1 (· + ·) ⟨Nat.add_assoc⟩ ⟨Nat.add_comm⟩
    c reach ⟨set_,by simp [items],List.isEmpty_iff.mp idle⟩
  have neutral : c.shared.OvertakenNeutral (· + ·) 0 := by
    simp [Operation.OvertakenNeutral,Operation.overtaken,Operation.kept,scanned,stored,after]
  exact ⟨c,reach,by simp [sent,folded.mpr neutral,Operation.values,Operation.arrived,items]⟩

/-- The second item adds its value after the first but stores its total before it:
    `reduce` completes with the total without the second value. -/
theorem overtaken_value_lost :
    ¬ ∀ op : Nat → Nat → Nat, Std.Associative op → Std.Commutative op →
      ∀ c : Config Party (Operation Nat Nat Empty) (Instr Nat Nat Empty),
        Reach (machine (nothrow op)) Values (initial 0) c → Ended c →
          c.shared.completions = [.value (c.shared.values.foldl op 0)] := by
  intro claimed
  obtain ⟨c,reach,computed⟩ := exists_of_follow (machine (nothrow (· + ·))) Values
    (initial 0 : Config Party (Operation Nat Nat Empty) _) (fun _ l => allValues l) values_of_allValues
    [(.call (.item 0 (.value 1)),0),(.call (.item 1 (.value 2)),0),(.run (.item 0),0),(.run (.item 1),0),
      (.run (.item 1),0),(.run (.item 0),0),(.run (.item 0),0),(.run (.item 1),0),(.call (.source (.value ())),0),
      (.run .source,0),(.run .source,0)]
    (fun c => c.shared.source = some (.value ()) ∧ c.shared.items = [(0,.value 1),(1,.value 2)] ∧
      (c.threads .source).isEmpty ∧ c.shared.completions = [.value 1]) (by decide)
  obtain ⟨set_,items,idle,sent⟩ := of_decide_eq_true computed
  have folded := claimed (· + ·) ⟨Nat.add_assoc⟩ ⟨Nat.add_comm⟩ c reach
    ⟨set_,by simp [items],List.isEmpty_iff.mp idle⟩
  simp [sent,Operation.values,Operation.arrived,items] at folded

end SendersIo.Reduce
