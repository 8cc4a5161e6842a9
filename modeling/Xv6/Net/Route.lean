import Mathlib.Data.List.Find
import Mathlib.Logic.Function.Basic
import Mathlib.Tactic.IntervalCases
import Xv6.Lib.Run

/-!
# Interfaces and routes

The interfaces and the route table of `kernel/net/ip.c`, and the requests of `socket_ioctl` that
change them. A device has at most one interface, so an interface is named by its device.
Addresses are kept as the source keeps them, in network order; `ntoh32` is the swap of a
little-endian machine. Routes are in the order of the list, the newest first.

`ip_iface_reconfigure` rewrites every route of the interface. Among these may be the default
route: it then stands for the connected network, in front of the connected route.
-/

namespace Xv6.Ip

open Lib Function

/-- `byteswap32`, which is `ntoh32`. -/
def ntoh32 (v : UInt32) : UInt32 :=
  (v &&& 0x000000ff) <<< 24 ||| (v &&& 0x0000ff00) <<< 8 ||| (v &&& 0x00ff0000) >>> 8 ||| (v &&& 0xff000000) >>> 24

/-- `IP_ADDR_ANY`. -/
abbrev addrAny : UInt32 := 0

/-- `IP_ADDR_BROADCAST`. -/
abbrev addrBroadcast : UInt32 := 0xffffffff

/-- `IP_HDR_SIZE_MIN`. -/
abbrev hdrSizeMin : ℕ := 20

/-- `struct ip_iface`. -/
structure Iface where
  unicast : UInt32
  netmask : UInt32
  broadcast : UInt32
  deriving DecidableEq

/-- An interface with the broadcast address of its network. -/
def Iface.make (unicast netmask : UInt32) : Iface := ⟨unicast, netmask, (unicast &&& netmask) ||| ~~~netmask⟩

/-- `struct ip_route`; the interface is given by its device. -/
structure Route where
  network : UInt32
  netmask : UInt32
  nexthop : UInt32
  dev : ℕ
  deriving DecidableEq

/-- The devices with their interfaces, the registered interfaces and the routes; and the gateway
that was configured last, with its device. -/
structure Tables where
  mtu : ℕ → ℕ
  iface : ℕ → Option Iface
  ifaces : List ℕ
  routes : List Route
  gateway : Option (ℕ × UInt32)

/-- A route covers a destination. -/
def Route.covers (r : Route) (dst : UInt32) : Bool := dst &&& r.netmask = r.network

/-- The loop of `ip_route_lookup`. -/
def lookupLoop (dst : UInt32) : List Route → Option Route → Option Route
  | [], candidate => candidate
  | r :: rs, none => lookupLoop dst rs (if r.covers dst then some r else none)
  | r :: rs, some c =>
    lookupLoop dst rs (if r.covers dst ∧ ntoh32 c.netmask < ntoh32 r.netmask then some r else some c)

namespace Tables

/-- `ip_route_lookup`. -/
def routeLookup (s : Tables) (dst : UInt32) : Option Route := lookupLoop dst s.routes none

/-- Why `ip_output` does not send. -/
inductive Refusal
  | noSource | noRoute | wrongSource | tooLong
  deriving DecidableEq

/-- What `ip_output` hands to `ip_output_core`. -/
structure Output where
  dev : ℕ
  src : UInt32
  nexthop : UInt32
  deriving DecidableEq

/-- `ip_output` up to the call of `ip_output_core`. Routes belong to devices with an interface; the
other case does not arise. -/
def ipOutput (s : Tables) (len : ℕ) (src dst : UInt32) : Except Refusal Output :=
  if src = addrAny ∧ dst = addrBroadcast then .error .noSource
  else
    match s.routeLookup dst with
    | none => .error .noRoute
    | some route =>
      match s.iface route.dev with
      | none => .error .noRoute
      | some iface =>
        if src ≠ addrAny ∧ src ≠ iface.unicast then .error .wrongSource
        else if s.mtu route.dev < hdrSizeMin + len then .error .tooLong
        else .ok ⟨route.dev, iface.unicast, if route.nexthop ≠ addrAny then route.nexthop else dst⟩

/-- `ip_route_add`; it fails when there is no memory. -/
def routeAdd (s : Tables) (room : Bool) (r : Route) : Option Tables :=
  if room then some { s with routes := r :: s.routes } else none

/-- `ip_iface_register` with a new interface. A device takes one interface; an interface without a
route stays with its device but is not registered. -/
def ifaceRegister (s : Tables) (room : Bool) (dev : ℕ) (f : Iface) : Tables :=
  match s.iface dev with
  | some _ => s
  | none =>
    let s := { s with iface := update s.iface dev (some f) }
    match s.routeAdd room ⟨f.unicast &&& f.netmask, f.netmask, addrAny, dev⟩ with
    | none => s
    | some s => { s with ifaces := dev :: s.ifaces }

/-- `ip_route_set_default_gateway` on an interface, with the outcome of `ip_addr_pton`. -/
def setDefaultGateway (s : Tables) (room : Bool) (dev : ℕ) (gateway : Option UInt32) : Tables :=
  match gateway with
  | none => s
  | some gw =>
    match s.routeAdd room ⟨addrAny, addrAny, gw, dev⟩ with
    | none => s
    | some s => { s with gateway := some (dev, gw) }

/-- What `ip_iface_reconfigure` does to a route. -/
def rewriteRoute (dev : ℕ) (f : Iface) (r : Route) : Route :=
  if r.dev = dev then { r with network := f.unicast &&& f.netmask, netmask := f.netmask } else r

/-- `ip_iface_reconfigure` of a device's interface. -/
def ifaceReconfigure (s : Tables) (dev : ℕ) (unicast netmask : UInt32) : Tables :=
  let f := Iface.make unicast netmask
  { s with iface := update s.iface dev (some f), routes := s.routes.map (rewriteRoute dev f) }

/-- The gateway that the request `SIOCSIFNETMASK` configures, 192.168.1.59. -/
abbrev hardcodedGateway : UInt32 := 0x3b01a8c0

/-- The request `SIOCSIFADDR`; `page` is whether there is memory for a new interface. -/
def siocsifaddr (s : Tables) (page room : Bool) (dev : ℕ) (addr : UInt32) : Tables :=
  match s.iface dev with
  | some f => s.ifaceReconfigure dev addr f.netmask
  | none => if page then s.ifaceRegister room dev (Iface.make addr addrBroadcast) else s

/-- The request `SIOCSIFNETMASK`. -/
def siocsifnetmask (s : Tables) (room : Bool) (dev : ℕ) (netmask : UInt32) : Tables :=
  match s.iface dev with
  | some f => (s.ifaceReconfigure dev f.unicast netmask).setDefaultGateway room dev (some hardcodedGateway)
  | none => s

end Tables

/-- The calls and requests that change the tables. `room` is whether `memory_alloc` finds a page. -/
inductive Act
  | register (room : Bool) (dev : ℕ) (unicast netmask : UInt32)
  | setDefaultGateway (room : Bool) (dev : ℕ) (gateway : Option UInt32)
  | reconfigure (dev : ℕ) (unicast netmask : UInt32)
  | siocsifaddr (page room : Bool) (dev : ℕ) (addr : UInt32)
  | siocsifnetmask (room : Bool) (dev : ℕ) (netmask : UInt32)

open Tables

/-- One step; gateways are set and interfaces reconfigured on devices that have an interface. -/
def next (s : Tables) : Act → Option Tables
  | .register room dev unicast netmask => some (s.ifaceRegister room dev (Iface.make unicast netmask))
  | .setDefaultGateway room dev gateway => if (s.iface dev).isSome then some
      (s.setDefaultGateway room dev gateway) else none
  | .reconfigure dev unicast netmask => if (s.iface dev).isSome then some
      (s.ifaceReconfigure dev unicast netmask) else none
  | .siocsifaddr page room dev addr => some (s.siocsifaddr page room dev addr)
  | .siocsifnetmask room dev netmask => some (s.siocsifnetmask room dev netmask)

def Step (s : Tables) (a : Act) (t : Tables) : Prop := next s a = some t

/-! ### The lookup -/

theorem ntoh32_ntoh32 (v : UInt32) : ntoh32 (ntoh32 v) = v := by
  apply UInt32.toBitVec_inj.mp
  apply BitVec.eq_of_getLsbD_eq
  intro i hi
  unfold ntoh32
  interval_cases i <;> simp

/-- The netmask as a number; of two networks that share an address the more specific one has the
greater number. -/
def maskKey (netmask : UInt32) : ℕ := (ntoh32 netmask).toNat

variable {netmask : UInt32}

theorem maskKey_pos (h : netmask ≠ 0) : 0 < maskKey netmask := by
  rw [maskKey, Nat.pos_iff_ne_zero]
  intro hzero
  apply h
  rw [← ntoh32_ntoh32 netmask, show ntoh32 netmask = 0 from UInt32.toNat_inj.mp hzero]
  rfl

theorem maskKey_zero : maskKey 0 = 0 := by decide

variable {dst : UInt32} {r : Route}

theorem Route.covers_iff : r.covers dst ↔ dst &&& r.netmask = r.network := decide_eq_true_iff

section Lookup

variable {dst : UInt32} {rs : List Route}

/-- One turn of the loop: a route that covers the destination and is more specific than the
candidate takes its place. -/
theorem lookupLoop_cons (r : Route) (c : Option Route) : lookupLoop dst (r :: rs) c =
    lookupLoop dst rs (if r.covers dst ∧ ∀ r' ∈ c, maskKey r'.netmask <
      maskKey r.netmask then some r else c) := by
  cases c <;> simp [lookupLoop, maskKey, UInt32.lt_iff_toNat_lt]

/-- The loop keeps its candidate if no covering route is more specific. Otherwise it ends with the
first of the most specific ones. -/
theorem lookupLoop_split (c : Option Route) :
    (lookupLoop dst rs c = c ∧ ∀ r ∈ rs, r.covers dst → ∃ r' ∈ c, maskKey r.netmask ≤ maskKey r'.netmask) ∨
    ∃ newer r older, rs = newer ++ r :: older ∧ lookupLoop dst rs c = some r ∧ r.covers dst ∧
      (∀ r' ∈ c, maskKey r'.netmask < maskKey r.netmask) ∧
      (∀ r' ∈ rs, r'.covers dst → maskKey r'.netmask ≤ maskKey r.netmask) ∧
      ∀ r' ∈ newer, r'.covers dst → maskKey r'.netmask < maskKey r.netmask := by
  induction rs generalizing c with
  | nil => exact Or.inl ⟨rfl, by simp⟩
  | cons r₀ rs ih =>
    rw [lookupLoop_cons]
    simp only [List.forall_mem_cons]
    split_ifs with hbetter
    · obtain ⟨hr, hall⟩ | ⟨newer, r, older, rfl, hr, hcovers, hc, hall, hnewer⟩ := ih (some r₀)
      · exact Or.inr ⟨[], r₀, rs, rfl, hr, hbetter.1, hbetter.2,
          ⟨fun _ => le_rfl, by simpa using hall⟩, by simp⟩
      · have hlt := hc r₀ rfl
        refine Or.inr ⟨r₀ :: newer, r, older, rfl, hr, hcovers, ?_, ⟨fun _ => hlt.le, hall⟩, ?_⟩
        · exact fun r' hr' => (hbetter.2 r' hr').trans hlt
        · exact List.forall_mem_cons.mpr ⟨fun _ => hlt, hnewer⟩
    · have hworse (hcovers : r₀.covers dst) : ∃ r' ∈ c, maskKey r₀.netmask ≤ maskKey r'.netmask := by
        by_contra! hlt
        exact hbetter ⟨hcovers, hlt⟩
      obtain ⟨hr, hall⟩ | ⟨newer, r, older, rfl, hr, hcovers, hc, hall, hnewer⟩ := ih c
      · exact Or.inl ⟨hr, hworse, hall⟩
      · have hlt (hcovers₀ : r₀.covers dst) : maskKey r₀.netmask < maskKey r.netmask := by
          obtain ⟨r', hr', hle⟩ := hworse hcovers₀
          exact hle.trans_lt (hc r' hr')
        exact Or.inr ⟨r₀ :: newer, r, older, rfl, hr, hcovers, hc, ⟨fun h => (hlt h).le, hall⟩,
          List.forall_mem_cons.mpr ⟨hlt, hnewer⟩⟩

/-- The lookup finds the first of the most specific covering routes, and nothing only if no route
covers the destination. -/
theorem lookupLoop_longest (dst : UInt32) (rs : List Route) :
    (lookupLoop dst rs none = none ∧ ∀ r ∈ rs, ¬ r.covers dst) ∨
    ∃ newer r older, rs = newer ++ r :: older ∧ lookupLoop dst rs none = some r ∧ r.covers dst ∧
      (∀ r' ∈ rs, r'.covers dst → maskKey r'.netmask ≤ maskKey r.netmask) ∧
      ∀ r' ∈ newer, r'.covers dst → maskKey r'.netmask < maskKey r.netmask := by
  simpa using lookupLoop_split none

/-- Among routes with one netmask the first covering one is found. -/
theorem lookupLoop_first (h : ∀ r ∈ rs, r.covers dst → r.netmask = netmask) :
    lookupLoop dst rs none = rs.find? fun r => r.covers dst := by
  obtain ⟨hr, hall⟩ | ⟨newer, r, older, rfl, hr, hcovers, -, hnewer⟩ := lookupLoop_longest dst rs
  · rw [hr, eq_comm, List.find?_eq_none]
    exact hall
  · rw [hr, eq_comm, List.find?_eq_some_iff_append]
    refine ⟨hcovers, newer, older, rfl, fun r' hr' => ?_⟩
    rw [Bool.not_eq_true', Bool.eq_false_iff]
    intro hcovers'
    have hlt := hnewer r' hr' hcovers'
    rw [h r' (by simp [hr']) hcovers', h r (by simp) hcovers] at hlt
    exact absurd hlt (lt_irrefl _)

end Lookup

/-! ### The longest match -/

/-- The netmask of a network whose addresses share `len` bits, in network order. -/
def lengthMask (len : ℕ) : UInt32 := ntoh32 (.ofNat (2 ^ 32 - 2 ^ (32 - len)))

theorem maskKey_lengthMask (len : ℕ) : maskKey (lengthMask len) = 2 ^ 32 - 2 ^ (32 - len) := by
  have hpos : 0 < 2 ^ (32 - len) := Nat.two_pow_pos _
  rw [maskKey, lengthMask, ntoh32_ntoh32, UInt32.toNat_ofNat', Nat.mod_eq_of_lt (by omega)]

/-- The network of a route is the addresses whose first `len` bits are those of its own address. -/
structure Route.Contiguous (r : Route) (len : ℕ) : Prop where
  le : len ≤ 32
  netmask : r.netmask = lengthMask len
  network : r.network = r.network &&& r.netmask

/-- The more specific one of two networks has the longer mask. -/
theorem Route.Contiguous.maskKey_lt_iff {r r' : Route} {len len' : ℕ} (h : r.Contiguous len)
    (h' : r'.Contiguous len') :
    maskKey r.netmask < maskKey r'.netmask ↔ len < len' := by
  have hle : 2 ^ (32 - len) ≤ 2 ^ 32 := Nat.pow_le_pow_right (by decide) (Nat.sub_le 32 len)
  have hiff : 2 ^ (32 - len') < 2 ^ (32 - len) ↔ 32 - len' < 32 - len := Nat.pow_lt_pow_iff_right (by decide)
  have hlen := h.le
  have hlen' := h'.le
  rw [h.netmask, h'.netmask, maskKey_lengthMask, maskKey_lengthMask]
  omega

/-- If all masks are contiguous, the route found has the longest prefix of those that cover the
destination, and it is the newest of them. -/
theorem Tables.routeLookup_longest (s : Tables) (dst : UInt32) (len : Route → ℕ)
    (h : ∀ r ∈ s.routes, r.Contiguous (len r)) :
    (s.routeLookup dst = none ↔ ∀ r ∈ s.routes, ¬ r.covers dst) ∧
    ∀ r, s.routeLookup dst = some r → r.covers dst ∧ (∀ r' ∈ s.routes, r'.covers dst → len r' ≤ len r) ∧
      ∃ newer older, s.routes = newer ++ r :: older ∧ ∀ r' ∈ newer, r'.covers dst → len r' < len r := by
  obtain ⟨hr, hall⟩ | ⟨newer, r, older, hrs, hr, hcovers, hall, hnewer⟩ := lookupLoop_longest dst s.routes
  · exact ⟨⟨fun _ => hall, fun _ => hr⟩, fun r hsome => (nomatch hr.symm.trans hsome)⟩
  · have hmem : r ∈ s.routes := by simp [hrs]
    refine ⟨⟨fun hnone => (nomatch hr.symm.trans hnone), fun hnot => absurd hcovers (hnot r hmem)⟩,
      fun r₁ hsome => ?_⟩
    obtain rfl : r = r₁ := Option.some.inj (hr.symm.trans hsome)
    refine ⟨hcovers, fun r' hr' hcovers' => ?_, newer, older, hrs, fun r' hr' hcovers' => ?_⟩
    · exact not_lt.mp fun hlt => (hall r' hr' hcovers').not_gt
        (((h r hmem).maskKey_lt_iff (h r' hr')).mpr hlt)
    · exact ((h r' (by simp [hrs, hr'])).maskKey_lt_iff (h r hmem)).mp (hnewer r' hr' hcovers')

/-- A host of 192.168.1.0/24, with a default route that was added later. -/
theorem Tables.routeLookup_longest_host : ∃ newer older,
    [(⟨0, 0, 0x3b01a8c0, 0⟩ : Route), ⟨0x1a8c0, 0xffffff, 0, 0⟩] = newer ++
      ⟨0x1a8c0, 0xffffff, 0, 0⟩ :: older ∧
    ∀ r ∈ newer, r.covers 0x501a8c0 → (if r.netmask = 0 then 0 else 24) < 24 :=
  ((routeLookup_longest ⟨fun _ => 0, fun _ => none, [],
    [⟨0, 0, 0x3b01a8c0, 0⟩, ⟨0x1a8c0, 0xffffff, 0, 0⟩], none⟩ 0x501a8c0
    (fun r => if r.netmask = 0 then 0 else 24) (List.forall_mem_cons.mpr
      ⟨⟨by decide, by decide, rfl⟩, List.forall_mem_cons.mpr ⟨⟨by decide, by decide, rfl⟩, by simp⟩⟩)).2
    ⟨0x1a8c0, 0xffffff, 0, 0⟩ (by decide)).2.2

/-! ### What routing is for -/

namespace Tables

/-- A destination is in the current network of a registered interface. -/
def Inside (s : Tables) (dev : ℕ) (dst : UInt32) : Prop :=
  dev ∈ s.ifaces ∧ ∃ f, s.iface dev = some f ∧ dst &&& f.netmask = f.unicast &&& f.netmask

/-- How specific the network of a device's interface is. -/
def maskOf (s : Tables) (dev : ℕ) : ℕ := (s.iface dev).elim 0 fun f => maskKey f.netmask

/-- `ip_output` sends on the device to the next hop, whatever is sent: with a source address it
accepts, and within the device's limit. -/
def Sends (s : Tables) (dst : UInt32) (dev : ℕ) (nexthop : UInt32) : Prop :=
  ∃ f, s.iface dev = some f ∧ ∀ src len, ¬ (src = addrAny ∧ dst = addrBroadcast) → src = addrAny ∨
    src = f.unicast →
    hdrSizeMin + len ≤ s.mtu dev → s.ipOutput len src dst = .ok ⟨dev, f.unicast, nexthop⟩

/-- Destinations in connected networks are reached directly, on the interface with the most specific
network, and other destinations through the gateway. -/
structure Routed (s : Tables) : Prop where
  direct : ∀ dev dst, s.Inside dev dst → ∃ out, s.Inside out dst ∧ s.maskOf dev ≤ s.maskOf out ∧
    s.Sends dst out dst
  outside : ∀ dev dst gw, (∀ d, ¬ s.Inside d dst) → s.gateway = some (dev, gw) → s.Sends dst dev gw

/-- No gateway was configured on the device. -/
def Ungated (s : Tables) (dev : ℕ) : Prop := ∀ r ∈ s.routes, r.dev = dev → r.nexthop = addrAny

/-- The connected route of an interface. -/
def connected (dev : ℕ) (f : Iface) : Route := ⟨f.unicast &&& f.netmask, f.netmask, addrAny, dev⟩

/-- A default route. -/
def defaultRoute (g : ℕ × UInt32) : Route := ⟨addrAny, addrAny, g.2, g.1⟩

/-- Connected routes and default routes are told apart by their netmask. -/
structure Sound (s : Tables) : Prop where
  connected : ∀ d ∈ s.ifaces, ∃ f, s.iface d = some f ∧ connected d f ∈ s.routes
  masked : ∀ d f, s.iface d = some f → f.netmask ≠ 0
  known : ∀ r ∈ s.routes, ((∃ g, r = defaultRoute g) ∧ r.nexthop ≠ addrAny ∧ (s.iface r.dev).isSome) ∨
    r.dev ∈ s.ifaces ∧ ∃ f, s.iface r.dev = some f ∧ r = Tables.connected r.dev f
  first : s.routes.find? (·.netmask = 0) = s.gateway.map defaultRoute

variable {s : Tables}

theorem Sends.of_lookup {f : Iface} (hr : s.routeLookup dst = some r)
    (hf : s.iface r.dev = some f) : s.Sends dst r.dev (if r.nexthop ≠ addrAny then r.nexthop else dst) := by
  refine ⟨f, hf, fun src len hsource hsrc hlen => ?_⟩
  unfold ipOutput
  rw [if_neg hsource, hr]
  dsimp only
  rw [hf]
  dsimp only
  have haccepted : ¬ (src ≠ addrAny ∧ src ≠ f.unicast) := fun h => hsrc.elim h.1 h.2
  rw [if_neg haccepted, if_neg (not_lt.mpr hlen)]

variable {dev : ℕ}

section

variable (h : s.Sound)

include h

theorem Sound.direct (hin : s.Inside dev dst) :
    ∃ out, s.Inside out dst ∧ s.maskOf dev ≤ s.maskOf out ∧ s.Sends dst out dst := by
  obtain ⟨hdev, f, hf, hnet⟩ := hin
  obtain ⟨f', hf', hroute⟩ := h.connected dev hdev
  obtain rfl : f = f' := Option.some.inj (hf.symm.trans hf')
  have hcovers : (Tables.connected dev f).covers dst := Route.covers_iff.mpr hnet
  obtain ⟨-, hnone⟩ | ⟨newer, r, older, hrs, hr, hrcovers, hall, -⟩ := lookupLoop_longest dst s.routes
  · exact absurd hcovers (hnone _ hroute)
  have hmem : r ∈ s.routes := by simp [hrs]
  have hlong := hall _ hroute hcovers
  simp only [Tables.connected] at hlong
  obtain ⟨⟨g, hg⟩, -, -⟩ | ⟨hout, f₂, hf₂, hr₂⟩ := h.known r hmem
  · -- a default route is never the most specific one
    have hpos := maskKey_pos (h.masked dev f hf)
    have hzero : r.netmask = 0 := congrArg Route.netmask hg
    rw [hzero, maskKey_zero] at hlong
    omega
  · have hmask : r.netmask = f₂.netmask := congrArg Route.netmask hr₂
    have hnetwork : r.network = f₂.unicast &&& f₂.netmask := congrArg Route.network hr₂
    have hhop : r.nexthop = addrAny := congrArg Route.nexthop hr₂
    refine ⟨r.dev, ⟨hout, f₂, hf₂, ?_⟩, ?_, ?_⟩
    · rw [← hmask, Route.covers_iff.mp hrcovers, hmask, hnetwork]
    · rw [hmask] at hlong
      simpa only [maskOf, hf, hf₂, Option.elim_some] using hlong
    · have hsends := Sends.of_lookup (show s.routeLookup dst = some r from hr) hf₂
      rwa [if_neg (not_not.mpr hhop)] at hsends

/-- Outside the connected networks only default routes cover a destination. -/
theorem Sound.covers_outside (hout : ∀ d, ¬ s.Inside d dst) (hr : r ∈ s.routes) :
    r.covers dst = decide (r.netmask = 0) := by
  obtain ⟨⟨g, hg⟩, -, -⟩ | ⟨hdev, f, hf, hconn⟩ := h.known r hr
  · rw [hg]
    exact decide_eq_decide.mpr ⟨fun _ => rfl, fun _ => UInt32.and_zero⟩
  · have hmask : r.netmask = f.netmask := congrArg Route.netmask hconn
    have hnetwork : r.network = f.unicast &&& f.netmask := congrArg Route.network hconn
    have hnot : ¬ r.covers dst := by
      intro hcovers
      refine hout r.dev ⟨hdev, f, hf, ?_⟩
      rw [← hmask, Route.covers_iff.mp hcovers, hmask, hnetwork]
    rw [Bool.eq_false_iff.mpr hnot, eq_comm, decide_eq_false_iff_not, hmask]
    exact h.masked _ f hf

theorem Sound.outside {gw : UInt32} (hout : ∀ d, ¬ s.Inside d dst)
    (hgateway : s.gateway = some (dev, gw)) : s.Sends dst dev gw := by
  have hfirst : s.routes.find? (·.netmask = 0) = some (defaultRoute (dev, gw)) := by
    rw [h.first, hgateway]
    rfl
  have hlookup : s.routeLookup dst = some (defaultRoute (dev, gw)) := by
    have hzero : ∀ r ∈ s.routes, r.covers dst → r.netmask = 0 := by
      intro r hr hcovers
      rw [h.covers_outside hout hr] at hcovers
      exact of_decide_eq_true hcovers
    rw [routeLookup, lookupLoop_first hzero, ← hfirst]
    exact List.find?_congr fun r hr => h.covers_outside hout hr
  obtain ⟨-, hhop, hsome⟩ | ⟨-, f, hf, hconn⟩ := h.known _ (List.mem_of_find?_eq_some hfirst)
  · obtain ⟨f, hf⟩ := Option.isSome_iff_exists.mp hsome
    have hsends := Sends.of_lookup hlookup hf
    rwa [if_pos hhop] at hsends
  · have hzero : f.netmask = 0 := (congrArg Route.netmask hconn).symm
    exact absurd hzero (h.masked _ f hf)

theorem Sound.routed : s.Routed := ⟨fun _ _ => h.direct, fun _ _ _ => h.outside⟩

/-! ### What the calls keep -/

/-- A new interface gets its connected route, or none at all. -/
theorem Sound.ifaceRegister (room : Bool) (dev : ℕ) {f : Iface} (hmask : f.netmask ≠ 0) :
    (s.ifaceRegister room dev f).Sound := by
  unfold Tables.ifaceRegister
  cases hdev : s.iface dev with
  | some _ => exact h
  | none =>
    have hother : ∀ d f', s.iface d = some f' → update s.iface dev (some f) d = some f' := by
      intro d f' hf'
      have hne : d ≠ dev := by
        rintro rfl
        rw [hdev] at hf'
        cases hf'
      rw [update_of_ne hne, hf']
    have hmasked : ∀ d f', update s.iface dev (some f) d = some f' → f'.netmask ≠ 0 := by
      intro d f' hf'
      by_cases hd : d = dev
      · subst hd
        rw [update_self] at hf'
        cases hf'
        exact hmask
      · rw [update_of_ne hd] at hf'
        exact h.masked d f' hf'
    have hknown : ∀ r ∈ s.routes, ((∃ g, r = defaultRoute g) ∧ r.nexthop ≠ addrAny ∧
        (update s.iface dev (some f) r.dev).isSome) ∨ r.dev ∈ s.ifaces ∧
          ∃ f', update s.iface dev (some f) r.dev = some f' ∧ r = Tables.connected r.dev f' := by
      intro r hr
      obtain ⟨hg, hhop, hsome⟩ | ⟨hmem, f', hf', hconn⟩ := h.known r hr
      · obtain ⟨f', hf'⟩ := Option.isSome_iff_exists.mp hsome
        exact Or.inl ⟨hg, hhop, Option.isSome_iff_exists.mpr ⟨f', hother _ _ hf'⟩⟩
      · exact Or.inr ⟨hmem, f', hother _ _ hf', hconn⟩
    cases room with
    | false =>
      refine ⟨fun d hd => ?_, hmasked, hknown, h.first⟩
      obtain ⟨f', hf', hmem⟩ := h.connected d hd
      exact ⟨f', hother _ _ hf', hmem⟩
    | true =>
      refine ⟨fun d hd => ?_, hmasked, fun r hr => ?_, ?_⟩
      · obtain rfl | hd := List.mem_cons.mp hd
        · exact ⟨f, update_self .., List.mem_cons_self⟩
        · obtain ⟨f', hf', hmem⟩ := h.connected d hd
          exact ⟨f', hother _ _ hf', List.mem_cons_of_mem _ hmem⟩
      · obtain rfl | hr := List.mem_cons.mp hr
        · exact Or.inr ⟨List.mem_cons_self, f, update_self .., rfl⟩
        · exact (hknown r hr).imp_right fun hconn => ⟨List.mem_cons_of_mem _ hconn.1, hconn.2⟩
      · change List.find? _ (_ :: s.routes) = _
        rw [List.find?_cons_of_neg (by simpa using hmask)]
        exact h.first

/-- A new default route is the first one. -/
theorem Sound.setDefaultGateway (room : Bool) (hdev : (s.iface dev).isSome) {gateway : Option UInt32}
    (hgateway : gateway ≠ some addrAny) : (s.setDefaultGateway room dev gateway).Sound := by
  cases gateway with
  | none => exact h
  | some gw =>
    cases room with
    | false => exact h
    | true =>
      refine ⟨fun d hd => ?_, h.masked, fun r hr => ?_, rfl⟩
      · obtain ⟨f, hf, hmem⟩ := h.connected d hd
        exact ⟨f, hf, List.mem_cons_of_mem _ hmem⟩
      · obtain rfl | hr := List.mem_cons.mp hr
        · exact Or.inl ⟨⟨(dev, gw), rfl⟩, fun hzero => hgateway (congrArg some hzero), hdev⟩
        · exact h.known r hr

end

theorem rewriteRoute_connected (dev d : ℕ) (g f : Iface) :
    rewriteRoute dev g (Tables.connected d f) = Tables.connected d (if d = dev then g else f) := by
  by_cases hd : d = dev
  · simp [rewriteRoute, Tables.connected, hd]
  · simp [rewriteRoute, Tables.connected, hd]

/-- Without a gateway on the device its default routes are left alone. -/
theorem Sound.rewriteRoute_of_zero (h : s.Sound) (hungated : s.Ungated dev) (g : Iface) (hr : r ∈ s.routes)
    (hzero : r.netmask = 0) : rewriteRoute dev g r = r := by
  obtain ⟨-, hhop, -⟩ | ⟨-, f, hf, hconn⟩ := h.known r hr
  · exact if_neg fun hd => hhop (hungated r hr hd)
  · have hmask : r.netmask = f.netmask := congrArg Route.netmask hconn
    exact absurd (hmask.symm.trans hzero) (h.masked _ f hf)

/-- Without a gateway on the device only its connected route is rewritten. -/
theorem Sound.ifaceReconfigure (h : s.Sound) (hungated : s.Ungated dev) (unicast : UInt32)
    (hmask : netmask ≠ 0) : (s.ifaceReconfigure dev unicast netmask).Sound := by
  have hiface : ∀ d f, s.iface d = some f → (s.ifaceReconfigure dev unicast netmask).iface d =
      some (if d = dev then Iface.make unicast netmask else f) := by
    intro d f hf
    by_cases hd : d = dev
    · rw [if_pos hd, hd]
      exact update_self ..
    · rw [if_neg hd, ← hf]
      exact update_of_ne hd ..
  refine ⟨fun d hd => ?_, fun d f hf => ?_, fun r' hr' => ?_, ?_⟩
  · obtain ⟨f, hf, hmem⟩ := h.connected d hd
    refine ⟨_, hiface d f hf, ?_⟩
    rw [← rewriteRoute_connected]
    exact List.mem_map_of_mem hmem
  · by_cases hd : d = dev
    · have hself : (s.ifaceReconfigure dev unicast netmask).iface dev = some (Iface.make unicast netmask) :=
        update_self ..
      rw [hd, hself] at hf
      cases hf
      exact hmask
    · exact h.masked d f ((update_of_ne hd ..).symm.trans hf)
  · obtain ⟨r, hr, rfl⟩ := List.mem_map.mp hr'
    obtain ⟨⟨g, hg⟩, hhop, hsome⟩ | ⟨hmem, f, hf, hconn⟩ := h.known r hr
    · have hzero : r.netmask = 0 := congrArg Route.netmask hg
      obtain ⟨f, hf⟩ := Option.isSome_iff_exists.mp hsome
      rw [h.rewriteRoute_of_zero hungated _ hr hzero]
      exact Or.inl ⟨⟨g, hg⟩, hhop, Option.isSome_iff_exists.mpr ⟨_, hiface _ f hf⟩⟩
    · rw [hconn, rewriteRoute_connected]
      exact Or.inr ⟨hmem, _, hiface _ f hf, rfl⟩
  · have htest : ∀ r ∈ s.routes, decide ((rewriteRoute dev (Iface.make unicast netmask) r).netmask = 0) =
        decide (r.netmask = 0) := by
      intro r hr
      by_cases hzero : r.netmask = 0
      · rw [h.rewriteRoute_of_zero hungated _ hr hzero]
      · have hnot : (rewriteRoute dev (Iface.make unicast netmask) r).netmask ≠ 0 := by
          unfold rewriteRoute
          split_ifs
          · exact hmask
          · exact hzero
        rw [decide_eq_false hzero, decide_eq_false hnot]
    change (s.routes.map _).find? _ = s.gateway.map defaultRoute
    rw [List.find?_map, ← h.first]
    have hsame : s.routes.find? ((fun r => decide (r.netmask = 0)) ∘
      rewriteRoute dev (Iface.make unicast netmask)) =
        s.routes.find? (·.netmask = 0) := List.find?_congr htest
    rw [hsame]
    cases hfound : s.routes.find? (·.netmask = 0) with
    | none => rfl
    | some r =>
      have hzero : r.netmask = 0 := by simpa using List.find?_some hfound
      rw [Option.map_some, h.rewriteRoute_of_zero hungated _ (List.mem_of_find?_eq_some hfound) hzero]

end Tables

/-! ### Runs -/

/-- What keeps routing correct: netmasks and gateways are not zero, and an interface is not
reconfigured any more once a gateway was configured on it. -/
def Careful (s : Tables) : Act → Prop
  | .register _ _ _ netmask => netmask ≠ 0
  | .setDefaultGateway _ _ gateway => gateway ≠ some addrAny
  | .reconfigure dev _ netmask => netmask ≠ 0 ∧ s.Ungated dev
  | .siocsifaddr _ _ dev _ => s.Ungated dev
  | .siocsifnetmask _ dev netmask => netmask ≠ 0 ∧ s.Ungated dev

/-- A step that is taken with care. -/
def CarefulStep (s : Tables) (a : Act) (t : Tables) : Prop := Step s a t ∧ Careful s a

/-- The tables before any interface is registered. -/
structure Tables.Boots (s : Tables) : Prop where
  iface : ∀ d, s.iface d = none
  ifaces : s.ifaces = []
  routes : s.routes = []
  gateway : s.gateway = none

variable {s t : Tables} {a : Act} {acts : List Act}

theorem Tables.Boots.sound (h : s.Boots) : s.Sound where
  connected d hd := by simp [h.ifaces] at hd
  masked d f hf := by simp [h.iface] at hf
  known r hr := by simp [h.routes] at hr
  first := by simp [h.routes, h.gateway]

/-- A careful step keeps connected and default routes apart. -/
theorem Tables.Sound.step (h : s.Sound) (hstep : CarefulStep s a t) : t.Sound := by
  obtain ⟨hnext, hcareful⟩ := hstep
  unfold Step next at hnext
  cases a with
  | register room dev unicast netmask =>
    cases hnext
    exact h.ifaceRegister room dev hcareful
  | setDefaultGateway room dev gateway =>
    dsimp only at hnext
    split_ifs at hnext with hdev
    cases hnext
    exact h.setDefaultGateway room hdev hcareful
  | reconfigure dev unicast netmask =>
    dsimp only at hnext
    split_ifs at hnext
    cases hnext
    exact h.ifaceReconfigure hcareful.2 unicast hcareful.1
  | siocsifaddr page room dev addr =>
    cases hnext
    unfold Tables.siocsifaddr
    cases hdev : s.iface dev with
    | some f => exact h.ifaceReconfigure hcareful addr (h.masked dev f hdev)
    | none =>
      cases page with
      | false => exact h
      | true => exact h.ifaceRegister room dev (show addrBroadcast ≠ 0 by decide)
  | siocsifnetmask room dev netmask =>
    cases hnext
    unfold Tables.siocsifnetmask
    cases hdev : s.iface dev with
    | some f =>
      have hsound := h.ifaceReconfigure hcareful.2 f.unicast hcareful.1
      refine hsound.setDefaultGateway room ?_ (by decide)
      exact Option.isSome_iff_exists.mpr ⟨_, update_self ..⟩
    | none => exact h

/-- In every run of careful steps from boot, routing is correct in every state that is reached. -/
theorem routed_of_careful (hboots : s.Boots) (hrun : Run CarefulStep s acts t) : t.Routed :=
  (hrun.invariant (fun _ _ _ hs hstep => hs.step hstep) hboots.sound).routed

/-- Devices without interfaces. -/
def noInterfaces : Tables := ⟨fun _ => 1500, fun _ => none, [], [], none⟩

theorem noInterfaces_boots : noInterfaces.Boots := ⟨fun _ => rfl, rfl, rfl, rfl⟩

/-- `SIOCSIFADDR` with 192.168.1.10 and `SIOCSIFNETMASK` with 255.255.255.0 on device 0. -/
def configured : List Act := [.siocsifaddr true true 0 0x0a01a8c0, .siocsifnetmask true 0 0x00ffffff]

/-- Once configured, the device reaches 192.168.1.20 directly and 8.8.8.8 through the gateway. -/
theorem routed_of_careful_configured : ∃ t, Run CarefulStep noInterfaces configured t ∧
    t.Sends 0x1401a8c0 0 0x1401a8c0 ∧ t.Sends 0x08080808 0 hardcodedGateway := by
  have hfirst : CarefulStep noInterfaces (.siocsifaddr true true 0 0x0a01a8c0)
      (noInterfaces.siocsifaddr true true 0 0x0a01a8c0) := ⟨rfl, by simp [Careful, Ungated, noInterfaces]⟩
  have hsecond : CarefulStep (noInterfaces.siocsifaddr true true 0 0x0a01a8c0)
    (.siocsifnetmask true 0 0x00ffffff)
      ((noInterfaces.siocsifaddr true true 0 0x0a01a8c0).siocsifnetmask true 0 0x00ffffff) := by
    refine ⟨rfl, by decide, fun r hr _ => ?_⟩
    obtain rfl := List.mem_singleton.mp (show r ∈ [_] from hr)
    rfl
  have hrun : Run CarefulStep noInterfaces configured _ := .cons hfirst (.cons hsecond (.nil _))
  have hrouted := routed_of_careful noInterfaces_boots hrun
  refine ⟨_, hrun, ?_, ?_⟩
  · obtain ⟨out, ⟨hout, -⟩, -, hsends⟩ := hrouted.direct 0 0x1401a8c0 ⟨List.mem_singleton.mpr rfl,
      _, rfl, by decide⟩
    obtain rfl := List.mem_singleton.mp (show out ∈ [0] from hout)
    exact hsends
  · refine hrouted.outside 0 0x08080808 hardcodedGateway ?_ rfl
    rintro d ⟨hd, f, hf, hnet⟩
    obtain rfl := List.mem_singleton.mp (show d ∈ [0] from hd)
    cases hf
    exact absurd hnet (by decide)

/-- The address is set once more: 192.168.1.20, in the network of the interface, is sent to the
gateway, and for 8.8.8.8 there is no route although a gateway is configured. -/
theorem route_lost : ∃ t, Run Step noInterfaces (configured ++ [.siocsifaddr true true 0 0x0a01a8c0]) t ∧
    t.Inside 0 0x1401a8c0 ∧ t.ipOutput 100 addrAny 0x1401a8c0 = .ok ⟨0, 0x0a01a8c0, hardcodedGateway⟩ ∧
    t.gateway = some (0, hardcodedGateway) ∧ t.ipOutput 100 addrAny 0x08080808 = .error .noRoute := by
  refine ⟨_, .cons rfl (.cons rfl (.cons rfl (.nil _))),
    ⟨List.mem_singleton.mpr rfl, _, rfl, by decide⟩, ?_, rfl, ?_⟩
  · decide +kernel
  · decide +kernel

end Xv6.Ip
