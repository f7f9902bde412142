/-
# `Pyramid.Ports` — from an argument to the port of a socket address

The server reads its port with `strtol` and refuses what is not wholly a
number, what is no `long` and the ports up to 1023; then the `long` becomes an
`int`, and `htons` keeps sixteen bits of it.  The client looks at every
character before `atoi`, and bounds the `int` from above only.  So neither
takes every port literally or not at all: here is what each makes of an
argument, and for which arguments the port is the number that stands there.
-/
import Pyramid.Memory.Text

namespace Pyramid

/-! ## The addresses -/

/-- `struct sockaddr_in`, as it lies in memory: `sinPort` is in network order. -/
structure SockaddrIn where
  sinFamily : Nat
  sinPort : Nat
  sinAddr : Nat
  deriving DecidableEq, Repr

/-- `IPV4_SOCKADDR`: each field keeps what it has room for. -/
def ipv4Sockaddr (f : Nat) (p : Int) (a : Nat) : SockaddrIn :=
  ⟨f, (p % 65536).toNat, a % 4294967296⟩

def afInet : Nat := 2

/-- `htons` of an `int`, which becomes a `uint16_t` first. -/
def htonsInt (x : Int) : Nat := htons (x % 65536).toNat

/-- The port that an address is for. -/
def SockaddrIn.port (addr : SockaddrIn) : Nat := htons addr.sinPort

theorem port_ipv4Sockaddr (f a : Nat) (x : Int) :
    (ipv4Sockaddr f (htonsInt x) a).port = (x % 65536).toNat := by
  have hsin : ((htonsInt x : Int) % 65536).toNat = htonsInt x := by
    have hlt := htons_lt (x % 65536).toNat
    unfold htonsInt
    omega
  rw [SockaddrIn.port, ipv4Sockaddr, hsin, htonsInt, htons_htons]
  omega

/-! ## The server -/

def validatePortNumber (port : Bytes) : Int :=
  let serverPort := strtol port
  if strtolEnd port ≠ [] ∨ serverPort = longMin ∨ serverPort = longMax
      ∨ 0 ≤ serverPort ∧ serverPort ≤ 1023 then 0
  else toInt32 serverPort

/-- `init_server_socket`, with what `socket` and `bind` answer: the descriptor
and the address it is bound to.  `INADDR_ANY` is zero. -/
def initServerSocket (socket : Int) (bind : Int → SockaddrIn → Int) (serverP : Int) :
    Option (Int × SockaddrIn) :=
  let serverPort := htonsInt serverP
  let serverAddr := ipv4Sockaddr afInet serverPort (htonl 0)
  if socket = -1 then none
  else if bind socket serverAddr = -1 then none
  else some (socket, serverAddr)

/-- The port that `main` gives to `init_server_socket`. -/
def serverPort (argv : List Bytes) : Int :=
  match argv[1]? with
  | none => 51729
  | some port =>
      if validatePortNumber port = 0 then 51729 else validatePortNumber port

/-! ## The client -/

inductive ClientErrorMsgs where
  | invalidIp
  | invalidPort
  deriving DecidableEq, Repr

def clientPrintUsage : Bytes :=
  ascii "Usage: client <server ip> <server port> group-ids...\n"

def clientPrintErrorMsgs (error : ClientErrorMsgs) (msg : Bytes) : Bytes :=
  match error with
  | .invalidIp =>
      ascii "Invalid IP address " ++ msg ++ ascii "\n" ++ clientPrintUsage
  | .invalidPort =>
      ascii "Invalid port number " ++ msg ++ ascii "\n" ++ clientPrintUsage

/-- What `client_input_sanity_check` answers, stores in `*sip`
and `*sp`, and prints. -/
structure SanityCheck where
  ok : Bool
  sip : Nat
  sp : Nat
  output : Bytes
  deriving DecidableEq, Repr

/-- `client_input_sanity_check`; `inetAton` gives the address
that `inet_aton` stores. -/
def clientInputSanityCheck (inetAton : Bytes → Option Nat) (argv : List Bytes)
    (sip sp : Nat) :
    Except Halt SanityCheck :=
  match argv with
  | [] | [_] =>
      -- `argv[2]` is taken first, and it is behind the null pointer that ends `argv`
      .error .outOfBounds
  | [_, _] | [_, _, _] => .ok ⟨false, sip, sp, clientPrintUsage⟩
  | _ :: as :: ps :: _ :: _ =>
      match inetAton as with
      | none => .ok ⟨false, sip, sp, clientPrintErrorMsgs .invalidIp as⟩
      | some addr =>
          if ∃ c ∈ ps, isDigit c = false then
            .ok ⟨false, addr, sp, clientPrintErrorMsgs .invalidPort ps⟩
          else if atoi ps > 65535 then .ok ⟨false, addr, sp,
            clientPrintErrorMsgs .invalidPort ps⟩
          else .ok ⟨true, addr, htonsInt (atoi ps), []⟩

/-- `client_connect`, with what `connect` answers: the address of the
connection, and none when the client exits. -/
def clientConnect (connect : Int → SockaddrIn → Int) (cfd : Int) (sip sp : Nat) :
    Option SockaddrIn :=
  let serverAddr := ipv4Sockaddr afInet sp sip
  if connect cfd serverAddr = -1 then none else some serverAddr

/-! ## What is read literally -/

/-- The argument is a numeral for a port from `low` on, and every address used is for
that port. -/
def Literal (low : Int) (s : Bytes) (used : SockaddrIn → Prop) : Prop :=
  ∃ n : Numeral, n.text = s ∧ low ≤ n.value ∧ n.value ≤ 65535 ∧
    ∀ addr, used addr → addr.port = n.value

/-- If the server does not refuse its port, it takes it literally. -/
def ServerLiteral (port : Bytes) : Prop :=
  validatePortNumber port ≠ 0 → Literal 1024 port fun addr =>
    ∃ socket bind fd, initServerSocket socket bind (validatePortNumber port)
      = some (fd, addr)

/-- If the client does not refuse its arguments, it takes the port literally. -/
def ClientLiteral (inetAton : Bytes → Option Nat) (prog as ps : Bytes)
    (groups : List Bytes) : Prop :=
  ∀ sip sp check, clientInputSanityCheck inetAton (prog :: as :: ps :: groups) sip sp
    = .ok check →
    check.ok = true → Literal 1 ps fun addr =>
      ∃ connect cfd, clientConnect connect cfd check.sip check.sp = some addr

theorem initServerSocket_port {socket : Int} {bind : Int → SockaddrIn → Int}
    {serverP fd : Int} {addr : SockaddrIn}
    (h : initServerSocket socket bind serverP = some (fd, addr)) :
    addr.port = (serverP % 65536).toNat := by
  simp only [initServerSocket] at h
  split at h
  · cases h
  · split at h
    · cases h
    · cases h
      exact port_ipv4Sockaddr _ _ _

theorem clientConnect_port {connect : Int → SockaddrIn → Int} {cfd : Int} {sip : Nat}
    {port : Int} {addr : SockaddrIn}
    (h : clientConnect connect cfd sip (htonsInt port) = some addr) :
    addr.port = (port % 65536).toNat := by
  simp only [clientConnect] at h
  split at h
  · cases h
  · cases h
    exact port_ipv4Sockaddr _ _ _

/-! ## The server's port -/

/-- What `validate_port_number` refuses: what is not wholly a number or is no
`long`, the ports up to 1023, and what is zero as an `int`. -/
def ServerRefuses (port : Bytes) : Prop :=
  strtolEnd port ≠ [] ∨ leadingInt port ≤ longMin ∨ longMax ≤ leadingInt port ∨
    0 ≤ leadingInt port ∧ leadingInt port ≤ 1023 ∨ leadingInt port % 4294967296 = 0

theorem validatePortNumber_eq_zero {port : Bytes} :
    validatePortNumber port = 0 ↔ ServerRefuses port := by
  have hlong : strtol port = clampInt64 (leadingInt port) := atoll_eq port
  simp only [validatePortNumber, ServerRefuses, hlong]
  by_cases hend : strtolEnd port = []
  · simp only [hend, ne_eq, not_true, false_or]
    unfold clampInt64 toInt32 longMin longMax
    split
    · omega
    · omega
  · simp only [hend, ne_eq, not_false_iff, true_or, if_true]

/-- What is not refused is kept, as far as an `int` goes. -/
theorem validatePortNumber_kept {port : Bytes} (hrefuses : ¬ ServerRefuses port) :
    validatePortNumber port = toInt32 (leadingInt port) := by
  unfold ServerRefuses longMin longMax at hrefuses
  simp only [not_or, not_not] at hrefuses
  obtain ⟨hend, hmin, hmax, hlow, -⟩ := hrefuses
  have hlong : strtol port = leadingInt port :=
    (atoll_eq port).trans (clampInt64_of_range (by omega) (by omega))
  simp only [validatePortNumber, hlong, hend, longMin, longMax, ne_eq,
    not_true, false_or]
  exact if_neg (by omega)

/-- What the server listens at: the number modulo `2^16`, when it is not refused. -/
theorem serverPort_port {argv : List Bytes} {socket fd : Int}
    {bind : Int → SockaddrIn → Int} {addr : SockaddrIn}
    (h : initServerSocket socket bind (serverPort argv) = some (fd, addr)) :
    (∀ port, argv[1]? = some port → ServerRefuses port) ∧ addr.port = 51729 ∨
      ∃ port, argv[1]? = some port ∧ ¬ ServerRefuses port ∧
      addr.port = leadingInt port % 65536 := by
  have hport := initServerSocket_port h
  rw [serverPort] at hport
  cases hargv : argv[1]? with
  | none =>
      rw [hargv] at hport
      exact Or.inl ⟨fun port hsome => (Option.some_ne_none port hsome.symm).elim,
        hport⟩
  | some port =>
      simp only [hargv] at hport
      split at hport
      · next hzero =>
          refine Or.inl ⟨?_, hport⟩
          rintro port ⟨⟩
          exact validatePortNumber_eq_zero.mp hzero
      · next hzero =>
          have hrefuses : ¬ ServerRefuses port :=
            mt validatePortNumber_eq_zero.mpr hzero
          rw [validatePortNumber_kept hrefuses, toInt32] at hport
          exact Or.inr ⟨port, rfl, hrefuses, by omega⟩

/-- The server takes a port literally if and only if it refuses it, or no blank
stands before the number and the number is neither negative nor above 65535. -/
theorem serverLiteral_iff (port : Bytes) : ServerLiteral port ↔
    ServerRefuses port ∨
      port.dropWhile isSpace = port ∧ 0 ≤ leadingInt port ∧
      leadingInt port ≤ 65535 := by
  constructor
  · intro hliteral
    by_cases hrefuses : ServerRefuses port
    · exact Or.inl hrefuses
    · obtain ⟨n, rfl, hlow, hhigh, -⟩ :=
        hliteral (mt validatePortNumber_eq_zero.mp hrefuses)
      refine Or.inr ⟨n.dropWhile_text, ?_⟩
      rw [n.leadingInt_eq]
      exact ⟨by omega, hhigh⟩
  · intro hcondition hport
    have hrefuses : ¬ ServerRefuses port := mt validatePortNumber_eq_zero.mpr hport
    obtain ⟨hblank, hnonneg, hhigh⟩ := hcondition.resolve_left hrefuses
    have hend : strtolEnd port = [] := by
      by_contra hend
      exact hrefuses (Or.inl hend)
    have hlow : 1024 ≤ leadingInt port := by
      by_contra hlow
      exact hrefuses (Or.inr (Or.inr (Or.inr (Or.inl ⟨hnonneg, by omega⟩))))
    have hne : port ≠ [] := by
      rintro rfl
      exact absurd hlow (by decide)
    have hvalue : validatePortNumber port = leadingInt port :=
      (validatePortNumber_kept hrefuses).trans
        (toInt32_of_range (by unfold intMin; omega) (by unfold intMax; omega))
    obtain ⟨n, rfl⟩ := exists_numeral hend hne hblank
    rw [n.leadingInt_eq] at hlow hhigh hvalue
    refine ⟨n, rfl, hlow, hhigh, ?_⟩
    rintro addr ⟨socket, bind, fd, hinit⟩
    rw [initServerSocket_port hinit, hvalue]
    omega

/-! ## The client's port -/

/-- What `client_input_sanity_check` refuses: too few arguments, no address,
a port with something else than digits, and one that is above 65535 as an `int`. -/
def ClientRefuses (inetAton : Bytes → Option Nat) (as ps : Bytes)
    (groups : List Bytes) : Prop :=
  groups = [] ∨ inetAton as = none ∨ (∃ c ∈ ps, isDigit c = false) ∨
    leadingNat ps < 9223372036854775808 ∧ 65536 ≤ leadingNat ps % 4294967296 ∧
      leadingNat ps % 4294967296 < 2147483648

theorem atoi_le_iff {ps : Bytes} (hdigits : ∀ c ∈ ps, isDigit c = true) :
    atoi ps ≤ 65535 ↔
    ¬ (leadingNat ps < 9223372036854775808 ∧ 65536 ≤ leadingNat ps % 4294967296 ∧
      leadingNat ps % 4294967296 < 2147483648) := by
  rw [atoi, strtol, atoll_eq, leadingInt_of_digits hdigits]
  unfold clampInt64 toInt32
  omega

theorem clientInputSanityCheck_refused {inetAton : Bytes → Option Nat}
    {prog as ps : Bytes} {groups : List Bytes} {sip sp : Nat} {check : SanityCheck}
    (hrefuses : ClientRefuses inetAton as ps groups)
    (h : clientInputSanityCheck inetAton (prog :: as :: ps :: groups) sip sp
      = .ok check) :
    check.ok = false := by
  cases groups with
  | nil =>
      cases h
      rfl
  | cons g groups =>
      simp only [clientInputSanityCheck] at h
      cases haddr : inetAton as with
      | none =>
          rw [haddr] at h
          cases h
          rfl
      | some addr =>
          simp only [haddr] at h
          split at h
          · cases h
            rfl
          next hdigits =>
          simp only [not_exists, not_and, Bool.not_eq_false] at hdigits
          have hhigh : atoi ps > 65535 := by
            rcases hrefuses with hbad | hbad | ⟨c, hc, hbad⟩ | hbad
            · cases hbad
            · exact absurd (haddr.symm.trans hbad) (Option.some_ne_none addr)
            · exact Bool.noConfusion ((hdigits c hc).symm.trans hbad)
            · exact Int.not_le.mp fun hle => (atoi_le_iff hdigits).mp hle hbad
          rw [if_pos hhigh] at h
          cases h
          rfl

theorem clientInputSanityCheck_accepted {inetAton : Bytes → Option Nat}
    {as ps : Bytes} {groups : List Bytes}
    (hrefuses : ¬ ClientRefuses inetAton as ps groups) (prog : Bytes)
    (sip sp : Nat) :
    (∀ c ∈ ps, isDigit c = true) ∧ ∃ addr,
      clientInputSanityCheck inetAton (prog :: as :: ps :: groups) sip sp
        = .ok ⟨true, addr, htonsInt (atoi ps), []⟩ := by
  unfold ClientRefuses at hrefuses
  simp only [not_or] at hrefuses
  obtain ⟨hgroups, haddr, hdigits, hhigh⟩ := hrefuses
  obtain ⟨g, groups, rfl⟩ := List.exists_cons_of_ne_nil hgroups
  obtain ⟨addr, haddr⟩ := Option.ne_none_iff_exists'.mp haddr
  have hall : ∀ c ∈ ps, isDigit c = true := by
    intro c hc
    by_contra hbad
    exact hdigits ⟨c, hc, Bool.not_eq_true _ ▸ hbad⟩
  refine ⟨hall, addr, ?_⟩
  simp only [clientInputSanityCheck, haddr, hdigits, if_false]
  exact if_neg (Int.not_lt.mpr ((atoi_le_iff hall).mpr hhigh))

/-- The client takes a port literally if and only if it refuses its arguments,
or the number is neither zero nor above 65535. -/
theorem clientLiteral_iff (inetAton : Bytes → Option Nat) (prog as ps : Bytes)
    (groups : List Bytes) :
    ClientLiteral inetAton prog as ps groups ↔
      ClientRefuses inetAton as ps groups ∨ 1 ≤ leadingNat ps ∧
      leadingNat ps ≤ 65535 := by
  by_cases hrefuses : ClientRefuses inetAton as ps groups
  · refine iff_of_true ?_ (Or.inl hrefuses)
    intro sip sp check hcheck hok
    rw [clientInputSanityCheck_refused hrefuses hcheck] at hok
    cases hok
  constructor
  · intro hliteral
    obtain ⟨hdigits, addr, hcheck⟩ :=
      clientInputSanityCheck_accepted hrefuses prog 0 0
    obtain ⟨n, rfl, hlow, hhigh, -⟩ := hliteral 0 0 _ hcheck rfl
    have hvalue := n.leadingInt_eq
    rw [leadingInt_of_digits hdigits] at hvalue
    exact Or.inr ⟨by omega, by omega⟩
  · intro hcondition sip sp check hcheck hok
    obtain ⟨hlow, hhigh⟩ := hcondition.resolve_left hrefuses
    obtain ⟨hdigits, addr, haccepted⟩ :=
      clientInputSanityCheck_accepted hrefuses prog sip sp
    cases haccepted.symm.trans hcheck
    have hne : ps ≠ [] := by
      rintro rfl
      exact absurd hlow (by decide)
    have hatoi : atoi ps = leadingNat ps := by
      rw [atoi, strtol, atoll_eq, leadingInt_of_digits hdigits]
      unfold clampInt64 toInt32
      omega
    have hvalue : Numeral.value ⟨.bare, ps, hdigits, hne⟩ = leadingNat ps := rfl
    refine ⟨⟨.bare, ps, hdigits, hne⟩, rfl, ?_⟩
    rw [hvalue]
    refine ⟨by omega, by omega, ?_⟩
    rintro addr ⟨connect, cfd, hconnect⟩
    rw [clientConnect_port hconnect, hatoi]
    omega

/-! ## Both -/

theorem ports_literal_iff (port : Bytes) (inetAton : Bytes → Option Nat)
    (prog as : Bytes) (groups : List Bytes) :
    (ServerLiteral port ↔ ServerRefuses port ∨
      port.dropWhile isSpace = port ∧ 0 ≤ leadingInt port ∧
      leadingInt port ≤ 65535) ∧
    (ClientLiteral inetAton prog as port groups ↔
      ClientRefuses inetAton as port groups ∨ 1 ≤ leadingNat port ∧
      leadingNat port ≤ 65535) :=
  ⟨serverLiteral_iff port, clientLiteral_iff inetAton prog as port groups⟩

/-- The server listens at port 4464 for `70000`, and the client connects to port 1
for `4294967297`. -/
theorem ports_cut :
    ¬ ServerLiteral (ascii "70000") ∧
      ¬ ClientLiteral (fun _ => some 16777343) (ascii "client") (ascii "127.0.0.1")
        (ascii "4294967297") [ascii "7"] := by
  constructor
  · intro hliteral
    obtain ⟨n, htext, -, hhigh, -⟩ := hliteral (by decide)
    have hvalue : n.value = 70000 := by
      rw [← n.leadingInt_eq, htext]
      decide
    omega
  · intro hliteral
    obtain ⟨n, htext, -, hhigh, -⟩ :=
      hliteral 0 0 ⟨true, 16777343, htonsInt 1, []⟩ (by decide +kernel) rfl
    have hvalue : n.value = 4294967297 := by
      rw [← n.leadingInt_eq, htext]
      decide
    omega

end Pyramid
