import SendersIo.Addresses

/-!
`make_address_v6` of a string. What comes before a '%' is copied into a buffer and
parsed as an address, and what comes after it is the scope: the name of an interface
if the address is local to a link, or a number. The scope has 16 bits, and the test for
a multicast address is narrower than that of `address_v6`.
-/
namespace SendersIo.ScopeIds
open SendersIo.Addresses
set_option linter.unusedSimpArgs false

/-- A string without its terminator. -/
structure CString where
  chars : List UInt8
  terminated : 0 ∉ chars

/-- What the host provides: `inet_pton` for IPv6, and `if_nametoindex`, which is 0 for
    a name that no interface has. -/
structure Host where
  inetPton : List UInt8 → Option (List.Vector UInt8 16)
  ifNametoindex : List UInt8 → UInt32

/-- `strchr`, as the position of the character. -/
def strchr (chars : List UInt8) (c : UInt8) : Option Nat := chars.findIdx? (· = c)

/-- `isspace` and `isdigit` in the C locale. -/
def isSpace (c : UInt8) : Bool := c = 32 || 9 ≤ c && c ≤ 13
def isDigit (c : UInt8) : Bool := 48 ≤ c && c ≤ 57

/-- The number that a string of digits begins with. -/
def digits (chars : List UInt8) : Nat :=
  (chars.takeWhile isDigit).foldl (fun n c => 10 * n + (c.toNat - 48)) 0

/-- `atoi`. The result is undefined out of the range of `int`; here there is no bound. -/
def atoi (chars : List UInt8) : Int :=
  match chars.dropWhile isSpace with
  | 45 :: rest => - (digits rest : Int)
  | 43 :: rest => digits rest
  | rest => digits rest

/-- `INET6_ADDRSTRLEN` of netinet/in.h. -/
def inet6AddrStrLen : Nat := 46

/-- `addr_buf`, which is initialized with zeros. -/
def addrBuf : List UInt8 := .replicate (inet6AddrStrLen + 1) 0

/-- The buffer after single bytes were written, each to its index. -/
def written (buf : List UInt8) (writes : List (UInt8 × Nat)) : List UInt8 :=
  writes.foldl (fun buf byte => buf.set byte.2 byte.1) buf

/-- The string that a buffer holds. -/
def cstr (buf : List UInt8) : List UInt8 := buf.takeWhile (· ≠ 0)

/-- What a call does: its result, the bytes written to `addr_buf`, each with its index,
    and the names it looks up. -/
structure Outcome where
  address : AddressV6
  writes : List (UInt8 × Nat)
  lookups : List (List UInt8)

-- named, so that the literals of `Fin 16` share one proof
local instance neZeroSixteen : NeZero 16 := ⟨by decide⟩

/-- The parser looks for the interface of an address with these bytes. -/
def looksUp (addr : List.Vector UInt8 16) : Bool :=
  let isLinkLocal := addr.get 0 = 0xfe && addr.get 1 &&& 0xc0 = 0x80
  let isMulticastLinkLocal := addr.get 0 = 0xff && addr.get 1 = 0x02
  isLinkLocal || isMulticastLinkLocal

/-- The scope id of an address and the name after the '%'; an index of 0 is as good as none. -/
def scopeId (host : Host) (addr : List.Vector UInt8 16) (name : List UInt8) : UInt16 :=
  let index := if looksUp addr then (host.ifNametoindex name).toUInt16 else 0
  if index = 0 then .ofInt (atoi name) else index

/-- `make_address_v6(const char*)`. -/
def makeAddressV6 (host : Host) (str : CString) : Outcome :=
  match strchr str.chars 37 with
  | none =>
    match host.inetPton str.chars with
    | some addr => ⟨⟨addr,0⟩,[],[]⟩
    | none => ⟨.any,[],[]⟩
  | some k =>
    if k > inet6AddrStrLen then ⟨.any,[],[]⟩
    else
      -- `memcpy`, and the terminator
      let writes := (str.chars.take k).zipIdx ++ [(0,k)]
      let name := str.chars.drop (k + 1)
      match host.inetPton (cstr (written addrBuf writes)) with
      | some addr => ⟨⟨addr,scopeId host addr name⟩,writes,if looksUp addr then [name] else []⟩
      | none => ⟨.any,writes,[]⟩

/-! ### The buffer -/

/-- Bytes that are written one after the other replace those that were there. -/
theorem written_zipIdx (front cs rest : List UInt8) (fits : cs.length ≤ rest.length) :
    written (front ++ rest) (cs.zipIdx front.length) = front ++ cs ++ rest.drop cs.length := by
  induction cs generalizing front rest with
  | nil => simp [written]
  | cons c cs ih =>
    cases rest with
    | nil => simp at fits
    | cons r rest =>
      have step := ih (front ++ [c]) rest (by simpa using fits)
      simp only [written,List.zipIdx_cons,List.foldl_cons] at step ⊢
      simpa using step

/-- The buffer holds what was copied into it, if that is shorter than the buffer. -/
theorem cstr_written (cs : List UInt8) (fits : cs.length ≤ inet6AddrStrLen) (terminated : 0 ∉ cs) :
    cstr (written addrBuf (cs.zipIdx ++ [(0,cs.length)])) = cs := by
  have copied : written addrBuf cs.zipIdx = cs ++ addrBuf.drop cs.length :=
    written_zipIdx [] cs addrBuf (by simp [addrBuf]; omega)
  have rest : addrBuf.drop cs.length = 0 :: addrBuf.drop (cs.length + 1) := by
    simp only [addrBuf,List.drop_replicate]
    rw [show inet6AddrStrLen + 1 - cs.length = inet6AddrStrLen - cs.length + 1 by omega,List.replicate_succ]
    congr 2
    omega
  have all : ∀ c ∈ cs, decide (c ≠ 0) = true := fun c member => by
    simpa using fun zero : c = 0 => terminated (zero ▸ member)
  have folded : written addrBuf (cs.zipIdx ++ [(0,cs.length)]) = (written addrBuf cs.zipIdx).set cs.length 0 := by
    simp [written]
  rw [folded,copied,rest,List.set_append_right _ _ (le_refl _),Nat.sub_self,cstr,List.takeWhile_append_of_pos all]
  simp

theorem lt_of_mem_writes {cs : List UInt8} {byte : UInt8 × Nat} (member : byte ∈ cs.zipIdx ++ [(0,cs.length)]) :
    byte.2 ≤ cs.length := by
  rcases List.mem_append.mp member with copied | terminator
  · have bound := (List.mem_zipIdx copied).2.1
    omega
  · rw [List.mem_singleton.mp terminator]

section
variable {host : Host} {str : CString} {k : Nat}

/-- The position of a '%' is inside of the string. -/
theorem strchr_lt (found : strchr str.chars 37 = some k) : k < str.chars.length := by
  have bound := List.findIdx?_eq_some_iff_findIdx_eq.mp found
  omega

/-- What `make_address_v6` does with a string that has a '%'. -/
theorem makeAddressV6_eq (found : strchr str.chars 37 = some k) : makeAddressV6 host str =
    if k > inet6AddrStrLen then ⟨.any,[],[]⟩
    else
      let writes := (str.chars.take k).zipIdx ++ [(0,k)]
      let name := str.chars.drop (k + 1)
      match host.inetPton (str.chars.take k) with
      | some addr => ⟨⟨addr,scopeId host addr name⟩,writes,if looksUp addr then [name] else []⟩
      | none => ⟨.any,writes,[]⟩ := by
  have length : (str.chars.take k).length = k := by simp [(strchr_lt found).le]
  simp only [makeAddressV6,found]
  by_cases long : k > inet6AddrStrLen
  · rw [if_pos long,if_pos long]
  · have copy := cstr_written (str.chars.take k) (by omega) fun zero => str.terminated (List.mem_of_mem_take zero)
    rw [length] at copy
    rw [if_neg long,if_neg long,copy]

end

/-! ### What is looked up -/

/-- The result is local to a link. -/
def LocalToLink (a : AddressV6) : Prop := a.isLinkLocal = true ∨ a.isMulticastLinkLocal = true

/-- What a string with a '%' at a position is to do: no byte is written outside of the buffer,
    and if an address comes before the '%', the name after it is looked up just if the result
    is local to a link, and an index that it finds is the scope of the result. -/
structure ScopeParsed (host : Host) (str : CString) (k : Nat) : Prop where
  bounded : ∀ byte ∈ (makeAddressV6 host str).writes, byte.2 < addrBuf.length
  lookups : (host.inetPton (str.chars.take k)).isSome →
    ((makeAddressV6 host str).lookups ≠ [] ↔ LocalToLink (makeAddressV6 host str).address)
  name : ∀ name ∈ (makeAddressV6 host str).lookups, name = str.chars.drop (k + 1)
  index : (host.inetPton (str.chars.take k)).isSome → ∀ name ∈ (makeAddressV6 host str).lookups,
    host.ifNametoindex name ≠ 0 → (makeAddressV6 host str).address.scopeId.toUInt32 = host.ifNametoindex name

/-- An address that the buffer can hold comes before the '%', so that its class matters: if it
    is multicast and local to a link, its flags are 0, and if it is local to a link at all, the
    index of the interface has 16 bits. -/
def Plain (host : Host) (str : CString) (k : Nat) : Prop :=
  ∀ addr, k ≤ inet6AddrStrLen → host.inetPton (str.chars.take k) = some addr →
    ((⟨addr,0⟩ : AddressV6).isMulticastLinkLocal = true → addr.get 1 = 2) ∧
    (LocalToLink ⟨addr,0⟩ → (host.ifNametoindex (str.chars.drop (k + 1))).toNat < 2 ^ 16)

section
variable {host : Host} {addr : List.Vector UInt8 16} {name : List UInt8}

/-- The parser's test is that of the class if a multicast address has no flags. -/
theorem looksUp_iff : (looksUp addr = true ↔ LocalToLink ⟨addr,0⟩) ↔
    ((⟨addr,0⟩ : AddressV6).isMulticastLinkLocal = true → addr.get 1 = 2) := by
  simp only [looksUp,LocalToLink,AddressV6.isLinkLocal,AddressV6.isMulticastLinkLocal,Bool.or_eq_true,Bool.and_eq_true,
    decide_eq_true_eq]
  generalize addr.get 0 = first
  generalize addr.get 1 = second
  by_cases multicast : first = 0xff
  · by_cases two : second = 2
    · simp [multicast,two,show (2 : UInt8) &&& 15 = 2 by decide]
    · simp [multicast,two]
  · simp [multicast]

/-- An index is kept if and only if it has 16 bits. -/
theorem scopeId_eq_iff (looks : looksUp addr = true) (known : host.ifNametoindex name ≠ 0) :
    (scopeId host addr name).toUInt32 = host.ifNametoindex name ↔ (host.ifNametoindex name).toNat < 2 ^ 16 := by
  constructor
  · intro kept
    rw [← kept,UInt16.toNat_toUInt32]
    exact UInt16.toNat_lt _
  · intro short
    have kept : (host.ifNametoindex name).toUInt16.toUInt32 = host.ifNametoindex name := by
      apply UInt32.toNat_inj.mp
      rw [UInt16.toNat_toUInt32,UInt32.toNat_toUInt16,Nat.mod_eq_of_lt short]
    have nonzero : (host.ifNametoindex name).toUInt16 ≠ 0 := fun zero => known (by rw [← kept,zero]; rfl)
    simp only [scopeId,looks,if_true,if_neg nonzero,kept]

end

theorem not_localToLink_any : ¬ LocalToLink .any := by
  unfold LocalToLink
  decide

section
variable {host : Host} {str : CString} {k : Nat}

/-- Whatever comes before the '%', no byte is written outside of the buffer. -/
theorem writes_bounded (found : strchr str.chars 37 = some k) :
    ∀ byte ∈ (makeAddressV6 host str).writes, byte.2 < addrBuf.length := by
  have length : (str.chars.take k).length = k := by simp [(strchr_lt found).le]
  rw [makeAddressV6_eq found]
  split
  · simp
  · rename_i short
    intro byte member
    have below : byte.2 ≤ k := by
      rw [← length]
      refine lt_of_mem_writes ?_
      rw [length]
      cases valid : host.inetPton (str.chars.take k) <;> simpa [valid] using member
    simp only [addrBuf,List.length_replicate]
    omega

/-- Nothing is looked up for a string without an address that fits the buffer. -/
theorem makeAddressV6_invalid (found : strchr str.chars 37 = some k)
    (invalid : k ≤ inet6AddrStrLen → host.inetPton (str.chars.take k) = none) :
    (makeAddressV6 host str).address = .any ∧ (makeAddressV6 host str).lookups = [] := by
  rw [makeAddressV6_eq found]
  split
  · exact ⟨rfl,rfl⟩
  · rename_i short
    simp [invalid (by omega)]

theorem makeAddressV6_valid (found : strchr str.chars 37 = some k) {addr : List.Vector UInt8 16}
    (short : k ≤ inet6AddrStrLen) (valid : host.inetPton (str.chars.take k) = some addr) :
    (makeAddressV6 host str).address = ⟨addr,scopeId host addr (str.chars.drop (k + 1))⟩ ∧
    (makeAddressV6 host str).lookups = if looksUp addr then [str.chars.drop (k + 1)] else [] := by
  rw [makeAddressV6_eq found,if_neg (by omega)]
  simp [valid]

end

/-- The name of an interface is looked up for the addresses of its class, and its index is
    the scope, if and only if the address and the index are plain. -/
theorem scope_parsed_iff (host : Host) (str : CString) (k : Nat) (found : strchr str.chars 37 = some k) :
    ScopeParsed host str k ↔ Plain host str k := by
  have bounded : ∀ byte ∈ (makeAddressV6 host str).writes, byte.2 < addrBuf.length := writes_bounded found
  by_cases parses : ∃ addr, k ≤ inet6AddrStrLen ∧ host.inetPton (str.chars.take k) = some addr
  · obtain ⟨addr,short,valid⟩ := parses
    obtain ⟨address,lookups⟩ := makeAddressV6_valid found short valid
    have local_ : LocalToLink (makeAddressV6 host str).address ↔ LocalToLink ⟨addr,0⟩ := by rw [address]; rfl
    have looked : (makeAddressV6 host str).lookups ≠ [] ↔ looksUp addr = true := by
      rw [lookups]
      cases looksUp addr <;> simp
    constructor
    · intro parsed addr' _ valid'
      obtain rfl : addr = addr' := Option.some.inj (valid.symm.trans valid')
      have looks : looksUp addr = true ↔ LocalToLink ⟨addr,0⟩ :=
        (looked.symm.trans (parsed.lookups (by simp [valid]))).trans local_
      refine ⟨looksUp_iff.mp looks,fun inLink => ?_⟩
      have found := looks.mpr inLink
      by_cases known : host.ifNametoindex (str.chars.drop (k + 1)) = 0
      · simp [known]
      · have index := parsed.index (by simp [valid]) (str.chars.drop (k + 1)) (by simp [lookups,found]) known
        rw [address] at index
        exact (scopeId_eq_iff found known).mp index
    · intro plain
      obtain ⟨flags,sixteen⟩ := plain addr short valid
      have looks := looksUp_iff.mpr flags
      have named : ∀ name ∈ (makeAddressV6 host str).lookups, looksUp addr = true ∧ name = str.chars.drop (k + 1) := by
        rw [lookups]
        cases looksUp addr <;> simp
      refine ⟨bounded,fun _ => (looked.trans looks).trans local_.symm,fun name member => (named name member).2,?_⟩
      intro _ name member known
      obtain ⟨found,rfl⟩ := named name member
      rw [address]
      exact (scopeId_eq_iff found known).mpr (sixteen (looks.mp found))
  · have invalid : k ≤ inet6AddrStrLen → host.inetPton (str.chars.take k) = none := by
      intro short
      by_contra some
      obtain ⟨addr,valid⟩ := Option.ne_none_iff_exists'.mp some
      exact parses ⟨addr,short,valid⟩
    obtain ⟨address,lookups⟩ := makeAddressV6_invalid found invalid
    refine ⟨fun _ addr short valid => absurd ⟨addr,short,valid⟩ parses,fun _ => ?_⟩
    refine ⟨bounded,fun _ => ?_,by simp [lookups],by simp [lookups]⟩
    simp [lookups,address,not_localToLink_any]

/-- The characters of a text. -/
def text (chars : List Char) : List UInt8 := chars.map fun c => .ofNat c.toNat

/-- A host that knows two addresses and the index of one interface. -/
def exampleHost : Host where
  inetPton chars :=
    if chars = text ['f','e','8','0',':',':','1'] then some ⟨[0xfe,0x80,0,0,0,0,0,0,0,0,0,0,0,0,0,1],by decide⟩
    else if chars = text ['f','f','1','2',':',':','1'] then some ⟨[0xff,0x12,0,0,0,0,0,0,0,0,0,0,0,0,0,1],by decide⟩
    else none
  ifNametoindex name := if name = text ['e','t','h','0'] then 7 else 0

/-- The interface of an address that is local to a link. -/
theorem scope_parsed_linkLocal :
    ScopeParsed exampleHost ⟨text ['f','e','8','0',':',':','1','%','e','t','h','0'],by decide⟩ 7 := by
  refine (scope_parsed_iff _ _ _ (by decide)).mpr fun addr _ valid => ?_
  obtain rfl : ⟨[0xfe,0x80,0,0,0,0,0,0,0,0,0,0,0,0,0,1],by decide⟩ = addr := Option.some.inj valid
  unfold LocalToLink
  decide

/-- The interface of a transient multicast address that is local to a link is not looked up. -/
theorem transient_multicast_not_looked_up :
    ¬ ∀ host str k, strchr str.chars 37 = some k → ScopeParsed host str k := by
  intro claimed
  have parsed := claimed exampleHost ⟨text ['f','f','1','2',':',':','1','%','e','t','h','0'],by decide⟩ 7 (by decide)
  have found := (parsed.lookups (by decide)).mpr (.inr (by decide))
  revert found
  decide

end SendersIo.ScopeIds
