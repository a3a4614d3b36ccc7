import Mathlib.Data.List.Infix
import SendersIo.Addresses
import SendersIo.Signals

/-!
`async::resolve`. The result of the request is a list of nodes that belongs to
the operation. `start_next` emits the current node as an item, whose receiver
goes on to the next node; the list is released at its end, after an item that
stopped, but not after an exception. What the operation does is the list of its
effects.
-/
namespace SendersIo.Resolve
open SendersIo.Addresses SendersIo.Signals
set_option linter.unusedSimpArgs false

/-- A node of the result list. -/
structure Addrinfo where
  aiAddr : Sockaddr

/-- The names of `ip::resolver_query`; its hints only go to the request. -/
structure ResolverQuery where
  hostName : String
  serviceName : String

/-- `ip::resolver_result`. -/
structure ResolverResult where
  hostName : String
  serviceName : String
  endpoint : Endpoint

/-- The endpoint that the constructor of `ip::resolver_result` makes of a node. -/
def nodeEndpoint : Sockaddr → Endpoint
  | .inet port addr => .ofAddress (.v4 ⟨addr⟩) port
  | .inet6 port _ addr _ => .ofAddress (.v6 ⟨addr,0⟩) port

/-- The constructor of `ip::resolver_result`. -/
def resolverResult (query : ResolverQuery) (node : Addrinfo) : ResolverResult :=
  ⟨query.hostName,query.serviceName,nodeEndpoint node.aiAddr⟩

/-- What happens when a node is emitted: the copy of the names for the result,
    `set_next` or `connect` throws, or the item completes. -/
inductive Behaviour where
  | copyThrows
  | setNextThrows
  | connectThrows
  | value
  | stopped
  deriving DecidableEq

def Behaviour.throws : Behaviour → Bool
  | .copyThrows | .setNextThrows | .connectThrows => true
  | .value | .stopped => false

/-- The nodes of a result, each with what happens when it is emitted. -/
abbrev Nodes := List (Addrinfo × Behaviour)

/-- The error of the operation: a code of the resolver category, or an exception. -/
inductive ResolveError where
  | resolver (rc : Int)
  | exception
  deriving DecidableEq

/-- What the operation does, in order. -/
inductive Effect where
  | construct (node : Addrinfo)
  | setNext (item : ResolverResult)
  | connect
  | start
  | readNext (node : Addrinfo)
  | freeaddrinfo
  | complete (signal : Signal ResolveError)

/-- `next_receiver::set_stopped` of a receiver whose token reports `stopRequested`. -/
def setStopped (stopRequested : Bool) : List Effect :=
  [.freeaddrinfo,.complete (setValueUnlessStopped stopRequested)]

/-- `operation::start_next` with `result_iter_` at the first of the nodes, and what
    follows from it: `next_receiver::set_value` goes on with the next node. -/
def startNext (query : ResolverQuery) (stopRequested : Bool) : Nodes → List Effect
  -- `result_iter_` is not null
  | [] => []
  | (_,.copyThrows) :: _ => [.complete (.error .exception)]
  | (node,.setNextThrows) :: _ =>
    [.construct node,.setNext (resolverResult query node),.complete (.error .exception)]
  | (node,.connectThrows) :: _ =>
    [.construct node,.setNext (resolverResult query node),.connect,.complete (.error .exception)]
  | (node,.stopped) :: _ =>
    [.construct node,.setNext (resolverResult query node),.connect,.start] ++ setStopped stopRequested
  | (node,.value) :: rest =>
    [.construct node,.setNext (resolverResult query node),.connect,.start,.readNext node] ++
      match rest with
      | [] => [.freeaddrinfo,.complete (.value ())]
      | _ :: _ => startNext query stopRequested rest

/-- `EAI_INPROGRESS` and `EAI_CANCELED` of netdb.h. -/
def eaiInProgress : Int := -100
def eaiCanceled : Int := -101

/-- `operation::notify` for a request with `gai_error` and `ar_result`. -/
def notify (query : ResolverQuery) (stopRequested : Bool) (rc : Int) (arResult : Nodes) : List Effect :=
  if rc = 0 then
    match arResult with
    | [] => [.complete (.value ())]
    | _ :: _ => startNext query stopRequested arResult
  else if rc = eaiCanceled then [.complete .stopped]
  else if rc ≠ eaiInProgress then [.complete (.error (.resolver rc))]
  else []

/-- What becomes of the request: `getaddrinfo_a` refuses it, or its notification
    comes with a list of nodes or with a final error code. -/
inductive Outcome where
  | refused (rc : Int) (failed : rc ≠ 0)
  | success (nodes : Nodes)
  | failure (rc : Int) (final : rc ≠ 0 ∧ rc ≠ eaiInProgress)

/-- `operation::start`, which does not look at what `getaddrinfo_a` returns. -/
def start (query : ResolverQuery) (stopRequested : Bool) : Outcome → List Effect
  | .refused _ _ => []
  | .success nodes => notify query stopRequested 0 nodes
  | .failure rc _ => notify query stopRequested rc []

/-- The nodes that the operation is given. -/
def Outcome.nodes : Outcome → Nodes
  | .success nodes => nodes
  | _ => []

/-! ### What the operation promises -/

/-- The nodes up to the first that stopped or threw, that node included when it
    threw after its result was made. -/
def emitted : Nodes → List Addrinfo
  | [] => []
  | (_,.copyThrows) :: _ => []
  | (node,.value) :: rest => node :: emitted rest
  | (node,_) :: _ => [node]

/-- They are the first nodes of the list, in its order. -/
theorem emitted_initial (nodes : Nodes) : emitted nodes <+: nodes.map Prod.fst := by
  induction nodes with
  | nil => simp [emitted]
  | cons head rest ih =>
    obtain ⟨node,behaviour⟩ := head
    cases behaviour <;> simp [emitted,ih]

/-- No node that is reached throws. -/
def Clean : Nodes → Prop
  | [] => True
  | (_,.value) :: rest => Clean rest
  | (_,behaviour) :: _ => behaviour.throws = false

/-- The items that a trace passes to `set_next`. -/
def items (trace : List Effect) : List ResolverResult :=
  trace.filterMap fun
    | .setNext item => some item
    | _ => none

/-- The completions of the receiver in a trace. -/
def completions (trace : List Effect) : List (Signal ResolveError) :=
  trace.filterMap fun
    | .complete signal => some signal
    | _ => none

def Effect.frees : Effect → Bool
  | .freeaddrinfo => true
  | _ => false

/-- An effect that reads a node. -/
def Effect.accesses : Effect → Bool
  | .construct _ | .readNext _ => true
  | _ => false

/-- No node is read once the list has been released. -/
def SafeAfterFree : List Effect → Prop
  | [] => True
  | e :: rest => (e.frees = true → ∀ later ∈ rest, later.accesses = false) ∧ SafeAfterFree rest

/-- The promise for a trace: the items in the order of the list up to the first
    node that stopped or threw, one completion, and one release of a list that is
    not null, after the last access to a node. -/
structure Kept (query : ResolverQuery) (nodes : Nodes) (trace : List Effect) : Prop where
  inOrder : items trace = (emitted nodes).map (resolverResult query)
  completes : (completions trace).length = 1
  releases : trace.countP Effect.frees = if nodes = [] then 0 else 1
  safe : SafeAfterFree trace

variable (query : ResolverQuery) (stopRequested : Bool)

theorem items_startNext (nodes : Nodes) :
    items (startNext query stopRequested nodes) = (emitted nodes).map (resolverResult query) := by
  induction nodes with
  | nil => rfl
  | cons head rest ih =>
    obtain ⟨node,behaviour⟩ := head
    cases behaviour with
    | value =>
      cases rest with
      | nil => rfl
      | cons next more =>
        simp only [startNext,items,emitted,List.filterMap_append,List.map_cons] at ih ⊢
        rw [ih]
        rfl
    | _ => rfl

theorem completions_startNext {nodes : Nodes} (nonempty : nodes ≠ []) :
    (completions (startNext query stopRequested nodes)).length = 1 := by
  induction nodes with
  | nil => exact absurd rfl nonempty
  | cons head rest ih =>
    obtain ⟨node,behaviour⟩ := head
    cases behaviour with
    | value =>
      cases rest with
      | nil => rfl
      | cons next more =>
        simp only [startNext,completions,List.filterMap_append,List.length_append] at ih ⊢
        rw [ih (by simp)]
        rfl
    | _ => rfl

/-- The list is released unless a node that is reached throws. -/
theorem frees_startNext {nodes : Nodes} (nonempty : nodes ≠ []) :
    (startNext query stopRequested nodes).countP Effect.frees = 1 ↔ Clean nodes := by
  induction nodes with
  | nil => exact absurd rfl nonempty
  | cons head rest ih =>
    obtain ⟨node,behaviour⟩ := head
    cases behaviour with
    | value =>
      cases rest with
      | nil => exact ⟨fun _ => trivial,fun _ => rfl⟩
      | cons next more =>
        simp only [Clean,startNext,List.countP_append] at ih ⊢
        rw [← ih (by simp)]
        simp [Effect.frees]
    | stopped => exact ⟨fun _ => rfl,fun _ => rfl⟩
    | _ => simp [startNext,Clean,Behaviour.throws,Effect.frees]

theorem safe_startNext (nodes : Nodes) : SafeAfterFree (startNext query stopRequested nodes) := by
  induction nodes with
  | nil => trivial
  | cons head rest ih =>
    obtain ⟨node,behaviour⟩ := head
    cases behaviour with
    | value =>
      cases rest with
      | nil => simp [startNext,SafeAfterFree,Effect.frees,Effect.accesses]
      | cons next more => simpa [startNext,SafeAfterFree,Effect.frees] using ih
    | stopped => simp [startNext,setStopped,SafeAfterFree,Effect.frees,Effect.accesses]
    | _ => simp [startNext,SafeAfterFree,Effect.frees]

/-- Whether `getaddrinfo_a` takes the request and no node that is reached throws. -/
def Outcome.Regular : Outcome → Prop
  | .refused _ _ => False
  | .success nodes => Clean nodes
  | .failure _ _ => True

/-- `resolve` keeps its promise if and only if the request is taken and no node
    that is reached throws. -/
theorem resolve_releases_list (outcome : Outcome) :
    Kept query outcome.nodes (start query stopRequested outcome) ↔ outcome.Regular := by
  cases outcome with
  | refused rc failed =>
    refine ⟨fun kept => ?_,False.elim⟩
    have := kept.completes
    simp [start,completions] at this
  | failure rc final =>
    refine ⟨fun _ => trivial,fun _ => ?_⟩
    obtain ⟨nonzero,done⟩ := final
    by_cases canceled : rc = eaiCanceled
    · have trace : start query stopRequested (.failure rc ⟨nonzero,done⟩) = [.complete .stopped] := by
        simp [start,notify,nonzero,canceled]
        decide
      rw [trace]
      exact ⟨rfl,rfl,rfl,by simp [SafeAfterFree,Effect.frees]⟩
    · have trace : start query stopRequested (.failure rc ⟨nonzero,done⟩) = [.complete (.error (.resolver rc))] := by
        simp [start,notify,nonzero,canceled,done]
      rw [trace]
      exact ⟨rfl,rfl,rfl,by simp [SafeAfterFree,Effect.frees]⟩
  | success nodes =>
    cases nodes with
    | nil => exact ⟨fun _ => trivial,fun _ => ⟨rfl,rfl,rfl,by simp [start,notify,SafeAfterFree,Effect.frees]⟩⟩
    | cons head rest =>
      have nonempty : head :: rest ≠ [] := by simp
      have trace : start query stopRequested (.success (head :: rest)) = startNext query stopRequested (head :: rest) :=
        rfl
      have frees := frees_startNext query stopRequested nonempty
      rw [trace]
      constructor
      · intro kept
        exact frees.mp (by simpa [Outcome.nodes] using kept.releases)
      · intro clean
        exact ⟨items_startNext query stopRequested _,completions_startNext query stopRequested nonempty,
          by simpa [Outcome.nodes] using frees.mpr clean,safe_startNext query stopRequested _⟩

/-- `set_next` throws at the only node: the list is not released. -/
theorem throwing_node_leaks_list :
    ¬ ∀ outcome, Kept ⟨"localhost","http"⟩ outcome.nodes (start ⟨"localhost","http"⟩ false outcome) := by
  intro claimed
  have kept := claimed (.success [(⟨.inet 80 0x0100007f⟩,.setNextThrows)])
  exact absurd kept.releases (by decide)

end SendersIo.Resolve
