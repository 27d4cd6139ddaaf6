import Ember.Basic
import Mathlib.Data.Nat.Digits.Defs

/-!
# Where the egress may go

The egress opens outbound connections for a browser somewhere else. A deny list says where to it
does not: addresses with the length of their network's part, and keywords for some well known ones.

The addresses are `std::net`'s, with the parser of its `FromStr`. What the resolver says of a name
and how an attempt to connect ends are up to a `Network`.

## What is proved

* `guarded_iff` — the policy of a deny list denies exactly the addresses of its items, and `connect`
  opens no connection to one of them, if and only if the address is not `Overlooked`: an IPv4
  address that only IPv6 items contain.
* `not_guarded` — an IPv4-mapped item, which denies nothing.
-/

namespace Ember.Node.Egress

/-! ### Addresses -/

/-- `std::net::IpAddr`. -/
inductive IpAddr
  | v4 (addr : BitVec 32)
  | v6 (addr : BitVec 128)
  deriving DecidableEq, Repr

namespace IpAddr

/-- The first 96 bits of an IPv4-mapped address. -/
def mapped : BitVec 96 := 0xffff#96

/-- Every address as one of 128 bits. -/
def bits : IpAddr → BitVec 128
  | v4 addr => mapped ++ addr
  | v6 addr => addr

/-- The length of the addresses of a family. -/
def width : IpAddr → ℕ
  | v4 _ => 32
  | v6 _ => 128

/-- Where an address of a family begins in one of 128 bits. -/
def offset : IpAddr → ℕ
  | v4 _ => 96
  | v6 _ => 0

/-- `Ipv6Addr::to_ipv4_mapped`. -/
def toIpv4Mapped (addr : BitVec 128) : Option (BitVec 32) :=
  if addr.extractLsb' 32 96 = mapped then some (addr.extractLsb' 0 32) else none

/-- `canonical`: an IPv4-mapped address is the IPv4 address. -/
def canonical : IpAddr → IpAddr
  | v6 addr =>
    match toIpv4Mapped addr with
    | some a => v4 a
    | none => v6 addr
  | ip => ip

end IpAddr

/-! ### Reading an address -/

/-- `char::to_digit`. -/
def toDigit (radix : ℕ) (c : Char) : Option ℕ :=
  let n := c.toNat
  let digit :=
    if '0'.toNat ≤ n ∧ n ≤ '9'.toNat then n - '0'.toNat
    else if 'a'.toNat ≤ n ∧ n ≤ 'z'.toNat then n - 'a'.toNat + 10
    else if 'A'.toNat ≤ n ∧ n ≤ 'Z'.toNat then n - 'A'.toNat + 10
    else radix
  if digit < radix then some digit else none

/-- The digits at the beginning. -/
def readDigits (radix : ℕ) : List Char → List ℕ × List Char
  | [] => ([], [])
  | c :: cs =>
    match toDigit radix c with
    | some d => (d :: (readDigits radix cs).1, (readDigits radix cs).2)
    | none => ([], c :: cs)

/-- `Parser::read_number`, of a type with `bound` values. -/
def readNumber (radix maxDigits : ℕ) (allowZeroPrefix : Bool) (bound : ℕ) (s : List Char) :
    Option (ℕ × List Char) :=
  let (digits, rest) := readDigits radix s
  let value := Nat.ofDigits radix digits.reverse
  if maxDigits < digits.length then none
  else if digits = [] then none
  else if !allowZeroPrefix && s.head? = some '0' && 1 < digits.length then none
  else if value < bound then some (value, rest)
  else none

/-- `Parser::read_given_char`. -/
def readGivenChar (c : Char) : List Char → Option (List Char)
  | d :: rest => if d = c then some rest else none
  | [] => none

/-- `Parser::read_separator`: the separator stands before all but the first. -/
def readSeparator {α : Type} (sep : Char) (first : Bool)
    (inner : List Char → Option (α × List Char)) (s : List Char) : Option (α × List Char) :=
  if first then inner s else (readGivenChar sep s).bind inner

/-- The octets of an IPv4 address that are still to be read. -/
def readOctets (first : Bool) : ℕ → List Char → Option (List ℕ × List Char)
  | 0, s => some ([], s)
  | n + 1, s => do
    let (octet, s) ← readSeparator '.' first (readNumber 10 3 false 256) s
    let (octets, s) ← readOctets false n s
    return (octet :: octets, s)

/-- `Parser::read_ipv4_addr`, as octets. -/
def readIpv4Addr (s : List Char) : Option (List ℕ × List Char) := readOctets true 4 s

/-- `read_groups`, with `n` groups still to be read: the groups, and whether an IPv4 address ended
them. -/
def readGroups (first : Bool) : ℕ → List Char → List ℕ × Bool × List Char
  | 0, s => ([], false, s)
  | n + 1, s =>
    match if 1 ≤ n then readSeparator ':' first readIpv4Addr s else none with
    | some (octets, rest) =>
      ([Nat.ofDigits 256 (octets.take 2).reverse, Nat.ofDigits 256 (octets.drop 2).reverse], true,
        rest)
    | none =>
      match readSeparator ':' first (readNumber 16 4 true (2 ^ 16)) s with
      | some (group, rest) => (group :: (readGroups false n rest).1, (readGroups false n rest).2)
      | none => ([], false, s)

/-- `Parser::read_ipv6_addr`, as groups of 16 bits. -/
def readIpv6Addr (s : List Char) : Option (List ℕ × List Char) :=
  let (head, headIpv4, rest) := readGroups true 8 s
  if head.length = 8 then some (head, rest)
  else if headIpv4 then none
  else do
    let rest ← readGivenChar ':' rest
    let rest ← readGivenChar ':' rest
    let (tail, _, rest) := readGroups true (8 - (head.length + 1)) rest
    return (head ++ List.replicate (8 - head.length - tail.length) 0 ++ tail, rest)

/-- `Parser::read_ip_addr`. -/
def readIpAddr (s : List Char) : Option (IpAddr × List Char) :=
  match readIpv4Addr s with
  | some (octets, rest) => some (.v4 (.ofNat 32 (Nat.ofDigits 256 octets.reverse)), rest)
  | none =>
    (readIpv6Addr s).map fun r ↦ (.v6 (.ofNat 128 (Nat.ofDigits (2 ^ 16) r.1.reverse)), r.2)

/-- `IpAddr::from_str`. -/
def IpAddr.fromStr (s : List Char) : Option IpAddr :=
  match readIpAddr s with
  | some (ip, []) => some ip
  | _ => none

/-- `u8::from_str`. -/
def parseU8 (s : List Char) : Option ℕ :=
  let digits := if s.head? = some '+' then s.tail else s
  let (values, rest) := readDigits 10 digits
  if values ≠ [] ∧ rest = [] ∧ Nat.ofDigits 10 values.reverse < 256 then
    some (Nat.ofDigits 10 values.reverse)
  else none

/-! ### The deny list -/

/-- A denied address range. -/
structure Cidr where
  addr : IpAddr
  prefixLen : ℕ
  prefixLen_le : prefixLen ≤ addr.width
  deriving DecidableEq

/-- What is wrong with an item. -/
inductive ItemError
  | badAddress (item : String)
  | badPrefix (item : String)
  | tooLong (prefixLen : ℕ) (item : String)
  deriving DecidableEq

/-- The bits of a network's part. -/
def mask (w prefixLen : ℕ) : BitVec w :=
  if prefixLen = 0 then 0 else BitVec.allOnes w <<< (w - prefixLen)

namespace Cidr

/-- `Cidr::parse`. -/
def parse (s : String) : Except ItemError Cidr :=
  let s := trim s
  let (a, p) :=
    match s.toList.idxOf? '/' with
    | some k => (s.toList.take k, some (s.toList.drop (k + 1)))
    | none => (s.toList, none)
  match IpAddr.fromStr a with
  | none => .error (.badAddress s)
  | some addr =>
    match (match p with | some p => parseU8 p | none => some addr.width) with
    | none => .error (.badPrefix s)
    | some prefixLen =>
      if h : prefixLen ≤ addr.width then .ok ⟨addr, prefixLen, h⟩
      else .error (.tooLong prefixLen s)

/-- `Cidr::contains`. -/
def contains (c : Cidr) (ip : IpAddr) : Bool :=
  match c.addr, ip.canonical with
  | .v4 net, .v4 ip => net &&& mask 32 c.prefixLen == ip &&& mask 32 c.prefixLen
  | .v6 net, .v6 ip => net &&& mask 128 c.prefixLen == ip &&& mask 128 c.prefixLen
  | _, _ => false

end Cidr

/-- The ranges of each keyword. -/
def keywords : List (String × List String) :=
  [("private", ["10.0.0.0/8", "172.16.0.0/12", "192.168.0.0/16", "100.64.0.0/10", "fc00::/7"]),
    ("link-local", ["169.254.0.0/16", "fe80::/10"]),
    ("loopback", ["127.0.0.0/8", "::1/128"])]

/-- `keyword`. -/
def keyword (k : String) : Option (List Cidr) :=
  (keywords.lookup k).map fun list ↦ list.filterMap fun c ↦ (Cidr.parse c).toOption

/-- Which destinations the egress may reach. -/
structure EgressPolicy where
  enabled : Bool
  deny : List Cidr

/-- The items of a deny list. -/
def items (list : String) : List String :=
  ((list.toList.splitOn ',').map fun item ↦ trim (.ofList item)).filter (· ≠ "")

/-- The ranges of an item. -/
def ranges (item : String) : Except ItemError (List Cidr) :=
  match keyword item with
  | some cidrs => .ok cidrs
  | none => (Cidr.parse item).map ([·])

namespace EgressPolicy

/-- `EgressPolicy::with_deny_list`. -/
def withDenyList (list : String) : Except ItemError EgressPolicy := do
  let deny ← (items list).foldlM (fun deny item ↦ (ranges item).map (deny ++ ·)) []
  return ⟨true, deny⟩

/-- `EgressPolicy::allows`. -/
def allows (p : EgressPolicy) (ip : IpAddr) : Bool := p.enabled && !p.deny.any (·.contains ip)

end EgressPolicy

/-! ### Connecting -/

/-- `std::net::SocketAddr`. -/
structure SocketAddr where
  ip : IpAddr
  port : BitVec 16
  deriving DecidableEq

/-- A CONNECT destination. -/
inductive Target
  | ip (addr : SocketAddr)
  | domain (host : String) (port : BitVec 16)
  deriving DecidableEq

/-- `std::io::ErrorKind`, as far as it matters. -/
inductive ErrorKind
  | connectionRefused
  | networkUnreachable
  | hostUnreachable
  | timedOut
  | other
  deriving DecidableEq

/-- How an attempt to connect ends. -/
inductive Attempt
  | connected
  | failed (kind : ErrorKind)
  /-- It takes longer than `CONNECT_TIMEOUT`. -/
  | timeout
  deriving DecidableEq

/-- Why there is no connection. -/
inductive ConnectError
  | disabled
  | resolving (host : String)
  | noAddress (target : Target)
  | denied (target : Target)
  /-- The last attempt; none before the first. -/
  | attempt (addr : Option SocketAddr) (kind : Option ErrorKind)
  deriving DecidableEq

/-- `reply_for`. -/
def replyFor : ErrorKind → UInt8
  | .connectionRefused => 0x05
  | .networkUnreachable => 0x03
  | .hostUnreachable => 0x04
  | .timedOut => 0x06
  | .other => 0x01

/-- The reply code. -/
def ConnectError.code : ConnectError → UInt8
  | disabled | denied _ => 0x02
  | resolving _ | noAddress _ | attempt none _ => 0x04
  | attempt (some _) (some kind) => replyFor kind
  | attempt (some _) none => 0x06

/-- What is not in this program's hands. -/
structure Network where
  lookupHost : String → BitVec 16 → Option (List SocketAddr)
  connect : SocketAddr → Attempt

/-- The addresses of a destination. -/
def Network.resolve (net : Network) : Target → Except ConnectError (List SocketAddr)
  | .ip addr => .ok [addr]
  | .domain host port =>
    match net.lookupHost host port with
    | some addrs => .ok addrs
    | none => .error (.resolving host)

/-- The attempts of `connect`: to whom, and how it ends. -/
def tryAll (net : Network) :
    ConnectError → List SocketAddr → List SocketAddr × Except ConnectError SocketAddr
  | last, [] => ([], .error last)
  | _, addr :: rest =>
    match net.connect addr with
    | .connected => ([addr], .ok addr)
    | .failed kind =>
      let r := tryAll net (.attempt (some addr) (some kind)) rest
      (addr :: r.1, r.2)
    | .timeout =>
      let r := tryAll net (.attempt (some addr) none) rest
      (addr :: r.1, r.2)

/-- `connect`: the addresses it tries, and the one it gets a connection to. -/
def connect (net : Network) (target : Target) (policy : EgressPolicy) :
    List SocketAddr × Except ConnectError SocketAddr :=
  if !policy.enabled then ([], .error .disabled)
  else
    match net.resolve target with
    | .error e => ([], .error e)
    | .ok addrs =>
      let allowed := addrs.filter fun a ↦ policy.allows a.ip
      if addrs = [] then ([], .error (.noAddress target))
      else if allowed = [] then ([], .error (.denied target))
      else tryAll net (.attempt none none) allowed

/-! ### What an item contains -/

/-- The addresses that share the item's first bits. -/
def Cidr.Covers (c : Cidr) (ip : IpAddr) : Prop :=
  ∀ i < c.addr.offset + c.prefixLen, c.addr.bits.getMsbD i = ip.bits.getMsbD i

instance (c : Cidr) (ip : IpAddr) : Decidable (c.Covers ip) := Nat.decidableBallLT _ _

theorem getMsbD_mask {w p : ℕ} (hp : p ≤ w) (i : ℕ) : (mask w p).getMsbD i = decide (i < p) := by
  unfold mask
  split
  case isTrue hzero => simp [hzero]
  case isFalse hpos =>
    rw [BitVec.getMsbD_shiftLeft, BitVec.getMsbD_allOnes]
    congr 1
    exact propext ⟨fun h ↦ by omega, fun h ↦ by omega⟩

/-- **The comparison of a network's part** is that of the first bits. -/
theorem and_mask_eq_iff {w p : ℕ} (hp : p ≤ w) (a b : BitVec w) :
    a &&& mask w p = b &&& mask w p ↔ ∀ i < p, a.getMsbD i = b.getMsbD i := by
  constructor
  · intro h i hi
    have hbit := congrArg (BitVec.getMsbD · i) h
    simpa [BitVec.getMsbD_and, getMsbD_mask hp, hi] using hbit
  · intro h
    refine BitVec.eq_of_getMsbD_eq fun i hi ↦ ?_
    rw [BitVec.getMsbD_and, BitVec.getMsbD_and, getMsbD_mask hp]
    by_cases hip : i < p
    · rw [h i hip]
    · simp [hip]

namespace IpAddr

theorem getMsbD_bits_v4 (a : BitVec 32) (i : ℕ) :
    (v4 a).bits.getMsbD i = if i < 96 then mapped.getMsbD i else a.getMsbD (i - 96) := by
  show (mapped ++ a).getMsbD i = _
  rw [BitVec.getMsbD_append]
  by_cases hi : i < 96
  · rw [if_pos hi, if_neg (by omega)]
  · rw [if_neg hi, if_pos (by omega)]

/-- An address is IPv4-mapped if its first 96 bits say so. -/
theorem toIpv4Mapped_eq_some {addr : BitVec 128} {a : BitVec 32}
    (h : toIpv4Mapped addr = some a) : mapped ++ a = addr := by
  unfold toIpv4Mapped at h
  split at h
  case isTrue heq =>
    obtain rfl := Option.some.inj h
    rw [← heq]
    exact (BitVec.extractLsb'_append_extractLsb'_eq_extractLsb' rfl).trans
      BitVec.extractLsb'_eq_self
  · cases h

theorem bits_canonical (ip : IpAddr) : ip.canonical.bits = ip.bits := by
  cases ip with
  | v4 a => rfl
  | v6 addr =>
    simp only [canonical]
    split
    case h_1 a heq => exact toIpv4Mapped_eq_some heq
    · rfl

/-- The address is an IPv4 address, in either form. -/
def isIpv4 (ip : IpAddr) : Bool :=
  match ip.canonical with
  | v4 _ => true
  | v6 _ => false

/-- **The IPv4 addresses** are those whose first 96 bits are the mapped ones. -/
theorem isIpv4_iff (ip : IpAddr) :
    ip.isIpv4 = true ↔ ∀ i < 96, ip.bits.getMsbD i = mapped.getMsbD i := by
  have hv4 : ∀ (a : BitVec 32), ∀ i < 96, (v4 a).bits.getMsbD i = mapped.getMsbD i :=
    fun a i hi ↦ (getMsbD_bits_v4 a i).trans (if_pos hi)
  cases ip with
  | v4 a => exact ⟨fun _ ↦ hv4 a, fun _ ↦ rfl⟩
  | v6 addr =>
    cases hmapped : toIpv4Mapped addr with
    | some a =>
      have hbits : (v6 addr).bits = (v4 a).bits := (toIpv4Mapped_eq_some hmapped).symm
      exact ⟨fun _ ↦ by rw [hbits]; exact hv4 a, fun _ ↦ by simp [isIpv4, canonical, hmapped]⟩
    | none =>
      refine ⟨fun h ↦ by simp [isIpv4, canonical, hmapped] at h, fun h ↦ ?_⟩
      -- The bits would make it a mapped address.
      have heq : addr.extractLsb' 32 96 = mapped := by
        refine BitVec.eq_of_getLsbD_eq fun i hi ↦ ?_
        have hbit : addr.getMsbD (95 - i) = mapped.getMsbD (95 - i) := h _ (by omega)
        rw [BitVec.getLsbD_extractLsb']
        rw [BitVec.getMsbD_eq_getLsbD, BitVec.getMsbD_eq_getLsbD,
          show 128 - 1 - (95 - i) = 32 + i by omega, show 96 - 1 - (95 - i) = i by omega] at hbit
        simpa [hi, show 95 - i < 128 by omega, show 95 - i < 96 by omega] using hbit
      rw [toIpv4Mapped, if_pos heq] at hmapped
      cases hmapped

end IpAddr

namespace Cidr

/-- The item is one of IPv6. -/
def isV6 (c : Cidr) : Bool :=
  match c.addr with
  | .v4 _ => false
  | .v6 _ => true

/-- **What an item matches**: what it contains, for an IPv6 item less the IPv4 addresses. -/
theorem contains_iff (c : Cidr) (ip : IpAddr) :
    c.contains ip = true ↔ c.Covers ip ∧ ¬ (c.isV6 = true ∧ ip.isIpv4 = true) := by
  obtain ⟨addr, p, hp⟩ := c
  unfold Covers
  rw [← ip.bits_canonical]
  cases addr with
  | v4 net =>
    have hp : p ≤ 32 := hp
    cases hip : ip.canonical with
    | v4 a =>
      simp only [contains, hip, beq_iff_eq, and_mask_eq_iff hp, isV6, Bool.false_eq_true, false_and,
        not_false_eq_true, and_true]
      constructor
      · intro h i hi
        rw [IpAddr.getMsbD_bits_v4, IpAddr.getMsbD_bits_v4]
        split
        · rfl
        · exact h (i - 96) (by simp only [IpAddr.offset] at hi; omega)
      · intro h i hi
        have hbit := h (i + 96) (by simp only [IpAddr.offset]; omega)
        rw [IpAddr.getMsbD_bits_v4, IpAddr.getMsbD_bits_v4, if_neg (by omega),
          if_neg (by omega)] at hbit
        simpa using hbit
    | v6 b =>
      have hno : ip.isIpv4 = false := by rw [IpAddr.isIpv4, hip]
      simp only [contains, hip, Bool.false_eq_true, false_iff, not_and]
      intro h
      refine absurd ((IpAddr.isIpv4_iff ip).2 fun i hi ↦ ?_) (Bool.eq_false_iff.1 hno)
      rw [← ip.bits_canonical, hip, ← h i (by simp only [IpAddr.offset]; omega),
        IpAddr.getMsbD_bits_v4, if_pos hi]
  | v6 net =>
    have hp : p ≤ 128 := hp
    cases hip : ip.canonical with
    | v4 a => simp [contains, hip, isV6, IpAddr.isIpv4]
    | v6 b =>
      simp only [contains, hip, beq_iff_eq, and_mask_eq_iff hp, isV6, IpAddr.isIpv4,
        Bool.false_eq_true, and_false, not_false_eq_true, and_true]
      simp only [IpAddr.offset, IpAddr.bits, Nat.zero_add]

end Cidr

/-! ### What a deny list denies -/

/-- Some item of the list, the keywords expanded, contains the address. -/
def Denied (list : String) (ip : IpAddr) : Prop :=
  ∃ item ∈ items list, ∃ cidrs, ranges item = .ok cidrs ∧ ∃ c ∈ cidrs, c.Covers ip

/-- The ranges of items, one after the other. -/
theorem mem_of_foldlM {its : List String} {deny deny' : List Cidr}
    (h : its.foldlM (fun deny item ↦ (ranges item).map (deny ++ ·)) deny = .ok deny') (c : Cidr) :
    c ∈ deny' ↔ c ∈ deny ∨ ∃ item ∈ its, ∃ cidrs, ranges item = .ok cidrs ∧ c ∈ cidrs := by
  induction its generalizing deny with
  | nil =>
    obtain rfl : deny = deny' := Except.ok.inj h
    simp
  | cons item its ih =>
    rw [List.foldlM_cons] at h
    cases hitem : ranges item with
    | error e => rw [hitem] at h; cases h
    | ok cidrs =>
      rw [hitem] at h
      rw [ih h, List.mem_append, or_assoc]
      refine or_congr_right ⟨?_, ?_⟩
      · rintro (hc | ⟨item', hmem, rest⟩)
        · exact ⟨item, List.mem_cons_self, cidrs, hitem, hc⟩
        · exact ⟨item', List.mem_cons_of_mem _ hmem, rest⟩
      · rintro ⟨item', hmem, cidrs', heq, hc⟩
        rcases List.mem_cons.1 hmem with rfl | hmem
        · obtain rfl := Except.ok.inj (hitem.symm.trans heq)
          exact .inl hc
        · exact .inr ⟨item', hmem, cidrs', heq, hc⟩

variable {p : EgressPolicy}

/-- **The policy of a deny list** is on, and has the ranges of its items. -/
theorem denied_iff {list : String} (h : EgressPolicy.withDenyList list = .ok p)
    (ip : IpAddr) : p.enabled = true ∧ (Denied list ip ↔ ∃ c ∈ p.deny, c.Covers ip) := by
  unfold EgressPolicy.withDenyList at h
  obtain ⟨deny, hdeny, hp⟩ : ∃ deny, (items list).foldlM
      (fun deny item ↦ (ranges item).map (deny ++ ·)) [] = .ok deny ∧ ⟨true, deny⟩ = p := by
    cases hfold : (items list).foldlM (fun deny item ↦ (ranges item).map (deny ++ ·)) [] with
    | error e => rw [hfold] at h; cases h
    | ok deny => rw [hfold] at h; exact ⟨deny, rfl, Except.ok.inj h⟩
  subst hp
  refine ⟨rfl, ?_⟩
  simp only [Denied, mem_of_foldlM hdeny, List.not_mem_nil, false_or]
  constructor
  · rintro ⟨item, hitem, cidrs, heq, c, hc, hcovers⟩
    exact ⟨c, ⟨item, hitem, cidrs, heq, hc⟩, hcovers⟩
  · rintro ⟨c, ⟨item, hitem, cidrs, heq, hc⟩, hcovers⟩
    exact ⟨item, hitem, cidrs, heq, c, hc, hcovers⟩

/-! ### Connections -/

theorem tryAll_subset (net : Network) (last : ConnectError) (addrs : List SocketAddr) :
    (tryAll net last addrs).1 ⊆ addrs := by
  induction addrs generalizing last with
  | nil => exact List.Subset.refl _
  | cons addr rest ih =>
    unfold tryAll
    split
    · exact List.cons_subset_cons _ (List.nil_subset _)
    · exact List.cons_subset_cons _ (ih _)
    · exact List.cons_subset_cons _ (ih _)

theorem mem_of_tryAll {net : Network} {last : ConnectError} {addrs : List SocketAddr}
    {addr : SocketAddr} (h : (tryAll net last addrs).2 = .ok addr) :
    addr ∈ (tryAll net last addrs).1 := by
  induction addrs generalizing last with
  | nil => cases h
  | cons a rest ih =>
    unfold tryAll at h ⊢
    split at h
    · obtain rfl := Except.ok.inj h
      exact List.mem_singleton_self _
    · exact List.mem_cons_of_mem _ (ih h)
    · exact List.mem_cons_of_mem _ (ih h)

/-- **`connect` tries allowed addresses only**, and opens a connection to one that it tries. -/
theorem allows_of_connect (net : Network) (target : Target) (p : EgressPolicy) :
    (∀ a ∈ (connect net target p).1, p.allows a.ip = true) ∧
      ∀ a, (connect net target p).2 = .ok a → a ∈ (connect net target p).1 := by
  unfold connect
  split
  · exact ⟨nofun, nofun⟩
  · split
    · exact ⟨nofun, nofun⟩
    case h_2 addrs _ =>
      simp only
      split
      · exact ⟨nofun, nofun⟩
      · split
        · exact ⟨nofun, nofun⟩
        · exact ⟨fun a ha ↦ (List.mem_filter.1 (tryAll_subset _ _ _ ha)).2, fun a ↦ mem_of_tryAll⟩

/-! ### Which addresses are denied -/

/-- The policy denies the address exactly if an item contains it, and no connection to it is tried
or opened if one does. -/
structure Guarded (list : String) (p : EgressPolicy) (ip : IpAddr) : Prop where
  allows : p.allows ip = false ↔ Denied list ip
  connect : Denied list ip → ∀ net target, ∀ a : SocketAddr, a.ip = ip →
    a ∉ (connect net target p).1 ∧ (connect net target p).2 ≠ .ok a

/-- An IPv4 address, in either form, that IPv6 items contain and IPv4 items do not. -/
def Overlooked (p : EgressPolicy) (ip : IpAddr) : Prop :=
  ip.isIpv4 = true ∧ (∃ c ∈ p.deny, c.isV6 = true ∧ c.Covers ip) ∧
    ∀ c ∈ p.deny, c.isV6 = false → ¬ c.Covers ip

instance (p : EgressPolicy) (ip : IpAddr) : Decidable (Overlooked p ip) := by
  unfold Overlooked
  infer_instance

theorem allows_eq_false_iff (hp : p.enabled = true) (ip : IpAddr) :
    p.allows ip = false ↔ ∃ c ∈ p.deny, c.Covers ip ∧ ¬ (c.isV6 = true ∧ ip.isIpv4 = true) := by
  simp only [EgressPolicy.allows, hp, Bool.true_and, Bool.not_eq_false', List.any_eq_true,
    Cidr.contains_iff]

/-- **A deny list denies what its items contain**, exactly where it does not overlook the address:
the items of an IPv4 address are those of IPv4 only. -/
theorem guarded_iff {list : String} {p : EgressPolicy}
    (h : EgressPolicy.withDenyList list = .ok p) (ip : IpAddr) :
    Guarded list p ip ↔ ¬ Overlooked p ip := by
  obtain ⟨hon, hdenied⟩ := denied_iff h ip
  have hallows := allows_eq_false_iff hon ip
  constructor
  · rintro ⟨hguarded, -⟩ ⟨hipv4, ⟨c, hc, -, hcovers⟩, hnone⟩
    obtain ⟨c', hc', hcovers', hnot⟩ := hallows.1 (hguarded.2 (hdenied.2 ⟨c, hc, hcovers⟩))
    cases hv6 : c'.isV6 with
    | true => exact hnot ⟨hv6, hipv4⟩
    | false => exact hnone c' hc' hv6 hcovers'
  · intro hnot
    have hiff : p.allows ip = false ↔ Denied list ip := by
      rw [hallows, hdenied]
      refine ⟨fun ⟨c, hc, hcovers, _⟩ ↦ ⟨c, hc, hcovers⟩, fun ⟨c, hc, hcovers⟩ ↦ ?_⟩
      by_contra hno
      push Not at hno
      have hc6 := hno c hc hcovers
      refine hnot ⟨hc6.2, ⟨c, hc, hc6.1, hcovers⟩, fun c' hc' hv4 hcovers' ↦ ?_⟩
      exact absurd ((hno c' hc' hcovers').1.symm.trans hv4) nofun
    refine ⟨hiff, fun hdeny net target a ha ↦ ?_⟩
    have hno : p.allows a.ip ≠ true := by rw [ha, hiff.2 hdeny]; nofun
    obtain ⟨hall, hmem⟩ := allows_of_connect net target p
    exact ⟨fun hin ↦ hno (hall a hin), fun hok ↦ hno (hall a (hmem a hok))⟩

/-- The private addresses and one more network are denied, also in the other form. -/
theorem guarded_private : ∃ p, EgressPolicy.withDenyList "private, 203.0.113.0/24" = .ok p ∧
    p.allows (.v6 0xffff0a000001#128) = false ∧
    Guarded "private, 203.0.113.0/24" p (.v6 0xffff0a000001#128) := by
  have hrun : (EgressPolicy.withDenyList "private, 203.0.113.0/24").toOption.map (fun p ↦
      (p.allows (.v6 0xffff0a000001#128), decide (Overlooked p (.v6 0xffff0a000001#128)))) =
      some (false, false) := by decide +kernel
  cases hlist : EgressPolicy.withDenyList "private, 203.0.113.0/24" with
  | error e => rw [hlist] at hrun; cases hrun
  | ok p =>
    rw [hlist] at hrun
    obtain ⟨hallows, hnot⟩ := Prod.mk.inj (Option.some.inj hrun)
    exact ⟨p, rfl, hallows, (guarded_iff hlist _).2 (of_decide_eq_false hnot)⟩

/-- **An item in the IPv4-mapped form denies nothing**: the policy allows 10.0.0.1, and `connect`
opens a connection to it. -/
theorem not_guarded : ∃ p, EgressPolicy.withDenyList "::ffff:10.0.0.0/104" = .ok p ∧
    Denied "::ffff:10.0.0.0/104" (.v4 0x0a000001#32) ∧ p.allows (.v4 0x0a000001#32) = true ∧
    (connect ⟨fun _ _ ↦ none, fun _ ↦ .connected⟩ (.ip ⟨.v4 0x0a000001#32, 80⟩) p).2.toOption =
      some ⟨.v4 0x0a000001#32, 80⟩ ∧
    ¬ Guarded "::ffff:10.0.0.0/104" p (.v4 0x0a000001#32) := by
  have hrun : (EgressPolicy.withDenyList "::ffff:10.0.0.0/104").toOption.map (fun p ↦
      (p.allows (.v4 0x0a000001#32), decide (∃ c ∈ p.deny, c.Covers (.v4 0x0a000001#32)),
        (connect ⟨fun _ _ ↦ none, fun _ ↦ .connected⟩ (.ip ⟨.v4 0x0a000001#32, 80⟩)
          p).2.toOption)) = some (true, true, some ⟨.v4 0x0a000001#32, 80⟩) := by decide +kernel
  cases hlist : EgressPolicy.withDenyList "::ffff:10.0.0.0/104" with
  | error e => rw [hlist] at hrun; cases hrun
  | ok p =>
    rw [hlist] at hrun
    obtain ⟨hallows, hrun⟩ := Prod.mk.inj (Option.some.inj hrun)
    obtain ⟨hcovers, hopened⟩ := Prod.mk.inj hrun
    have hdenied := (denied_iff hlist _).2.2 (of_decide_eq_true hcovers)
    refine ⟨p, rfl, hdenied, hallows, hopened, fun hguarded ↦ ?_⟩
    exact absurd (hallows.symm.trans (hguarded.allows.2 hdenied)) nofun

end Ember.Node.Egress
