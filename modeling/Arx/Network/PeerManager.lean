import Arx.Movelib.Run
import Mathlib.Data.List.AList

/-!
# Simultaneous dialing

Two managers dial each other. Each decides alone which of the two connections it keeps, and is told
only later what the other one has dropped.
-/

namespace Arx.Network
open Movelib Function List

abbrev PeerId := ℕ
abbrev ConnectionId := ℕ

inductive ConnectionOrigin
  | inbound
  | outbound
  deriving DecidableEq

inductive PeerRole
  | validator
  | preferredUpstream
  | upstream
  | validatorFullNode
  | downstream
  | known
  | unknown
  deriving DecidableEq

structure ConnectionMetadata where
  remotePeerId : PeerId
  connectionId : ConnectionId
  origin : ConnectionOrigin
  role : PeerRole
  deriving DecidableEq

inductive DisconnectReason
  | requested
  | connectionLost
  deriving DecidableEq

inductive ConnectionNotification
  | newPeer (metadata : ConnectionMetadata)
  | lostPeer (metadata : ConnectionMetadata) (reason : DisconnectReason)
  deriving DecidableEq

inductive TransportNotification
  | newConnection (conn : ConnectionMetadata)
  | disconnected (lost : ConnectionMetadata) (reason : DisconnectReason)

structure PeerManager where
  peerId : PeerId
  trustedPeers : PeerId → Option PeerRole
  inboundConnectionLimit : ℕ
  activePeers : AList fun _ : PeerId => ConnectionMetadata
  /-- What has been sent to the event handlers, the latest first. -/
  notifications : List (PeerId × ConnectionNotification)

namespace PeerManager

variable (m : PeerManager)

variable (peer : PeerId)

def sendConnNotification (notification : ConnectionNotification) : PeerManager :=
  { m with notifications := (peer,notification) :: m.notifications }

def lastNotification : Option ConnectionNotification :=
  m.notifications.lookup peer

def connection : Option ConnectionMetadata := m.activePeers.lookup peer

def roleOf : PeerRole := (m.trustedPeers peer).getD .unknown

def unknownInboundConns : ℕ :=
  (m.activePeers.entries.filter fun entry =>
    entry.2.origin = .inbound ∧ m.roleOf entry.1 = .unknown).length

def rejects (conn : ConnectionMetadata) : Bool :=
  conn.origin = .inbound ∧ conn.role = .unknown ∧ conn.remotePeerId ∉ m.activePeers ∧
    m.unknownInboundConns + 1 > m.inboundConnectionLimit

def simultaneousDialTieBreaking (ownPeerId remotePeerId : PeerId) :
    ConnectionOrigin → ConnectionOrigin → Bool
  | .inbound, .inbound => true
  | .outbound, .outbound => true
  | .inbound, .outbound => remotePeerId < ownPeerId
  | .outbound, .inbound => ownPeerId < remotePeerId

def addPeer (conn : ConnectionMetadata) : PeerManager × Option ConnectionMetadata :=
  let peer := conn.remotePeerId
  let added := { m with activePeers := m.activePeers.insert peer conn }
  if m.peerId = peer then (m,some conn)
  else
    match m.connection peer with
    | some curr =>
      if simultaneousDialTieBreaking m.peerId peer curr.origin conn.origin then (added,some curr)
      else (m,some conn)
    | none => (added.sendConnNotification peer (.newPeer conn),none)

def handleConnectionEvent : TransportNotification → PeerManager × Option ConnectionMetadata
  | .newConnection conn =>
    if m.rejects conn then (m,some conn)
    else
      match conn.origin with
      | .outbound => m.addPeer { conn with role := m.roleOf conn.remotePeerId }
      | .inbound => m.addPeer conn
  | .disconnected lost reason =>
    let peer := lost.remotePeerId
    let rest := match m.connection peer with
      | some conn =>
        if conn.connectionId = lost.connectionId then m.activePeers.erase peer else m.activePeers
      | none => m.activePeers
    let left := { m with activePeers := rest }
    (if peer ∈ rest then left else left.sendConnNotification peer (.lostPeer lost reason),none)

end PeerManager

/-- Two peers, each of which dials the other. A connection has an id of its own at each end. -/
structure Dial where
  peerIds : Bool → PeerId
  /-- By the end and the dialer. -/
  connectionIds : Bool → Bool → ConnectionId
  roles : Bool → Bool → PeerRole
  peers_ne : peerIds false ≠ peerIds true
  connections_ne : ∀ e, connectionIds e false ≠ connectionIds e true

structure Peers where
  managers : Bool → PeerManager
  /-- The ends and the dialers whose `NewConnection` event has been processed. -/
  opened : List (Bool × Bool)
  /-- The dialers whose connection has been dropped at one end. -/
  dropped : List Bool
  closed : List (Bool × Bool)

inductive PeerEvent
  | newConnection (e d : Bool)
  | disconnected (e d : Bool) (reason : DisconnectReason)

/-- The event cannot occur now. -/
def DISABLED : Abort := .code 1

namespace Dial

variable (x : Dial)

variable (m : PeerManager) (e d : Bool)

def origin : ConnectionOrigin := if e = d then .outbound else .inbound

def conn : ConnectionMetadata :=
  ⟨x.peerIds (!e),x.connectionIds e d,origin e d,x.roles e d⟩

def greater : Bool := x.peerIds false < x.peerIds true

def start (managers : Bool → PeerManager) : Peers := ⟨managers,[],[],[]⟩

/-- One end processes an event. A connection is lost only after it has been dropped. -/
def step (p : Peers) : PeerEvent → Result Peers
  | .newConnection e d => do
    ensure ((e,d) ∉ p.opened) DISABLED
    let (m,drops) := (p.managers e).handleConnectionEvent (.newConnection (x.conn e d))
    let dialer := fun c : ConnectionMetadata => if c.origin = .outbound then e else !e
    pure { p with
      managers := update p.managers e m
      opened := (e,d) :: p.opened
      dropped := (drops.map dialer).toList ++ p.dropped }
  | .disconnected e d reason => do
    ensure ((e,d) ∈ p.opened ∧ d ∈ p.dropped ∧ (e,d) ∉ p.closed) DISABLED
    let (m,_) := (p.managers e).handleConnectionEvent (.disconnected (x.conn e d) reason)
    pure { p with managers := update p.managers e m, closed := (e,d) :: p.closed }

/-- No connection limit is reached. -/
def Admits (p : Peers) : PeerEvent → Prop
  | .newConnection e d => (p.managers e).rejects (x.conn e d) = false
  | .disconnected _ _ _ => True

def Active : Prop :=
  ∃ c, m.connection (x.peerIds (!e)) = some c ∧
    c.connectionId = x.connectionIds e d ∧ c.origin = origin e d

def Notified : Prop :=
  ∃ c, m.lastNotification (x.peerIds (!e)) = some (.newPeer c)

/-- One end has the connection of the greater peer if it has seen it, and otherwise the other one or
none. -/
def Holds (opened : List (Bool × Bool)) : Prop :=
  m.peerId = x.peerIds e ∧
    (m.connection (x.peerIds (!e)) = none ∧ (e,x.greater) ∉ opened ∨
      ∃ d, x.Active m e d ∧ (e,d) ∈ opened ∧ x.Notified m e ∧ ((e,x.greater) ∈ opened → d = x.greater))

structure Consistent (p : Peers) : Prop where
  holds : ∀ e, x.Holds (p.managers e) e p.opened
  kept : x.greater ∉ p.dropped

variable {x}

/-- The tie is broken the same way at both ends. -/
theorem tieBreaking_eq {e d d' : Bool} (hne : d ≠ d') :
    PeerManager.simultaneousDialTieBreaking (x.peerIds e) (x.peerIds (!e)) (origin e d)
      (origin e d') = decide (d' = x.greater) := by
  obtain hlt | hgt := Nat.lt_or_gt_of_ne x.peers_ne
  · have hg : x.greater = true := decide_eq_true hlt
    cases e <;> cases d <;> cases d' <;>
      simp_all [origin,PeerManager.simultaneousDialTieBreaking,hlt.le]
  · have hg : x.greater = false := decide_eq_false hgt.le.not_gt
    cases e <;> cases d <;> cases d' <;>
      simp_all [origin,PeerManager.simultaneousDialTieBreaking,hgt.le]

theorem connectionIds_inj {e d d' : Bool} (h : x.connectionIds e d = x.connectionIds e d') :
    d = d' := by
  have hne := x.connections_ne e
  cases d <;> cases d' <;> simp_all

theorem peerIds_ne (e : Bool) : x.peerIds e ≠ x.peerIds (!e) := by
  have hne := x.peers_ne
  cases e
  · exact hne
  · exact hne.symm

variable {m : PeerManager} {e d : Bool} {opened : List (Bool × Bool)}

theorem dialer_eq {c : ConnectionMetadata} (hc : c.origin = origin e d) :
    (if c.origin = .outbound then e else !e) = d := by
  rw [hc]
  cases e <;> cases d <;> rfl

/-- A new connection is dropped, or the one that it replaces is, but never the one of the greater
peer. -/
theorem Holds.newConnection (h : x.Holds m e opened) (hnew : (e,d) ∉ opened)
    (hr : m.rejects (x.conn e d) = false) :
    x.Holds (m.handleConnectionEvent (.newConnection (x.conn e d))).1 e ((e,d) :: opened) ∧
      ∀ c ∈ (m.handleConnectionEvent (.newConnection (x.conn e d))).2,
        (if c.origin = .outbound then e else !e) ≠ x.greater := by
  obtain ⟨hid,hactive⟩ := h
  obtain ⟨c,hc,hremote,hconn,horigin⟩ : ∃ c, m.handleConnectionEvent (.newConnection (x.conn e d)) =
      m.addPeer c ∧ c.remotePeerId = x.peerIds (!e) ∧ c.connectionId = x.connectionIds e d ∧
        c.origin = origin e d := by
    simp only [PeerManager.handleConnectionEvent,hr,Bool.false_eq_true,if_false]
    cases ho : (x.conn e d).origin with
    | inbound => exact ⟨_,rfl,rfl,rfl,rfl⟩
    | outbound => exact ⟨_,rfl,rfl,rfl,ho.symm⟩
  have hself : m.peerId ≠ c.remotePeerId := by
    rw [hid,hremote]
    exact peerIds_ne e
  have hadded : x.Active { m with activePeers := m.activePeers.insert c.remotePeerId c } e d := by
    refine ⟨c,?_,hconn,horigin⟩
    rw [← hremote]
    exact AList.lookup_insert _
  rw [hc]
  simp only [PeerManager.addPeer,if_neg hself]
  obtain ⟨hnone,hunseen⟩ | ⟨d',⟨c',hc',hconn',horigin'⟩,hopened,hnotified,hgreater⟩ := hactive
  · rw [← hremote] at hnone
    simp only [hnone]
    refine ⟨⟨hid,.inr ⟨d,hadded,mem_cons_self,⟨c,?_⟩,fun hg => ?_⟩⟩,nofun⟩
    · rw [← hremote]
      exact lookup_cons_self
    · obtain hg | hg := mem_cons.mp hg
      · exact (congrArg Prod.snd hg).symm
      · exact absurd hg hunseen
  · have hne : d' ≠ d := fun heq => hnew (heq ▸ hopened)
    have htie : PeerManager.simultaneousDialTieBreaking m.peerId c.remotePeerId c'.origin c.origin =
        decide (d = x.greater) := by
      rw [hid,hremote,horigin',horigin,tieBreaking_eq hne]
    simp only [hremote,hc'] at htie ⊢
    simp only [htie]
    by_cases hd : d = x.greater
    · rw [if_pos (decide_eq_true hd)]
      refine ⟨⟨hid,.inr ⟨d,hremote ▸ hadded,mem_cons_self,hnotified,fun _ => hd⟩⟩,?_⟩
      rintro _ ⟨⟩
      rw [dialer_eq horigin',← hd]
      exact hne
    · rw [if_neg (by simpa using hd)]
      have hd' : d' = x.greater := by
        revert hne hd
        cases d <;> cases d' <;> cases x.greater <;> simp
      refine ⟨⟨hid,.inr ⟨d',⟨c',hc',hconn',horigin'⟩,mem_cons_of_mem _ hopened,
        hnotified,fun _ => hd'⟩⟩,?_⟩
      rintro _ ⟨⟩
      rwa [dialer_eq horigin]

theorem Holds.disconnected {reason : DisconnectReason} (h : x.Holds m e opened)
    (hd : d ≠ x.greater) :
    x.Holds (m.handleConnectionEvent (.disconnected (x.conn e d) reason)).1 e opened := by
  obtain ⟨hid,⟨hnone,hunseen⟩ | ⟨d',⟨c',hc',hconn',horigin'⟩,hopened,hnotified,hgreater⟩⟩ := h
  · have hpeer : (x.conn e d).remotePeerId = x.peerIds (!e) := rfl
    simp only [PeerManager.handleConnectionEvent,hpeer,hnone]
    rw [if_neg (AList.lookup_eq_none.mp hnone)]
    exact ⟨hid,.inl ⟨hnone,hunseen⟩⟩
  · have hpeer : (x.conn e d).remotePeerId = x.peerIds (!e) := rfl
    simp only [PeerManager.handleConnectionEvent,hpeer,hc',hconn']
    by_cases hdd : d' = d
    · subst hdd
      rw [if_pos (show x.connectionIds e d' = (x.conn e d').connectionId from rfl),
        if_neg (by simp)]
      refine ⟨hid,.inl ⟨AList.lookup_erase _ _,fun hg => hd (hgreater hg)⟩⟩
    · rw [if_neg (show ¬ x.connectionIds e d' = (x.conn e d).connectionId from
        fun heq => hdd (connectionIds_inj heq)),
        if_pos (AList.lookup_isSome.mp (Option.isSome_iff_exists.mpr ⟨_,hc'⟩))]
      exact ⟨hid,.inr ⟨d',⟨c',hc',hconn',horigin'⟩,hopened,hnotified,hgreater⟩⟩

theorem Holds.cons {e' : Bool} (h : x.Holds m e opened) (hne : e ≠ e') :
    x.Holds m e ((e',d) :: opened) := by
  have hmem : ∀ d', (e,d') ∈ (e',d) :: opened ↔ (e,d') ∈ opened := by
    simp [hne]
  simpa only [Holds,hmem] using h

theorem step_consistent {p q : Peers} {event : PeerEvent} (h : x.Consistent p)
    (hadmits : x.Admits p event) (hstep : x.step p event = .ok q) : x.Consistent q := by
  cases event with
  | newConnection e d =>
    simp only [step,bind_eq_ok,ensure_eq_ok,pure_eq_ok] at hstep
    obtain ⟨_,hnew,rfl⟩ := hstep
    obtain ⟨hholds,hdrops⟩ := (h.holds e).newConnection hnew hadmits
    refine ⟨fun e' => ?_,fun hmem => ?_⟩
    · by_cases he : e' = e
      · subst he
        simpa only [update_self] using hholds
      · simpa only [update_of_ne he] using (h.holds e').cons he
    · obtain hmem | hmem := mem_append.mp hmem
      · obtain ⟨c,hc,heq⟩ := Option.map_eq_some_iff.mp (Option.mem_toList.mp hmem)
        exact hdrops c hc heq
      · exact h.kept hmem
  | disconnected e d reason =>
    simp only [step,bind_eq_ok,ensure_eq_ok,pure_eq_ok] at hstep
    obtain ⟨_,⟨-,hdropped,-⟩,rfl⟩ := hstep
    have hd : d ≠ x.greater := fun heq => h.kept (heq ▸ hdropped)
    refine ⟨fun e' => ?_,h.kept⟩
    by_cases he : e' = e
    · subst he
      simpa only [update_self] using (h.holds e').disconnected hd
    · simpa only [update_of_ne he] using h.holds e'

/-- Two peers that are not connected dial each other, and no connection limit is reached. Whatever
the order of the events, once both ends have seen both connections, each has the one dialed by the
greater peer as its active connection to the other, and has announced the other peer last. -/
theorem simultaneous_dial_converges {managers : Bool → PeerManager} {events : List PeerEvent}
    {p : Peers} (hids : ∀ e, (managers e).peerId = x.peerIds e)
    (hfree : ∀ e, x.peerIds (!e) ∉ (managers e).activePeers)
    (h : Run x.step x.Admits (start managers) events p) (hall : ∀ e d, (e,d) ∈ p.opened) (e : Bool) :
    x.Active (p.managers e) e x.greater ∧ x.Notified (p.managers e) e := by
  have hstart : x.Consistent (start managers) := by
    refine ⟨fun e => ⟨hids e,.inl ⟨AList.lookup_eq_none.mpr (hfree e),not_mem_nil⟩⟩,
      not_mem_nil⟩
  have hp : x.Consistent p := h.invariant hstart fun _ _ _ ht hg hs => step_consistent ht hg hs
  obtain ⟨-,⟨-,hunseen⟩ | ⟨d,hactive,-,hnotified,hgreater⟩⟩ := hp.holds e
  · exact absurd (hall e _) hunseen
  · rw [← hgreater (hall e _)]
    exact ⟨hactive,hnotified⟩

def duo : Dial where
  peerIds := fun e => if e then 2 else 1
  connectionIds := fun _ d => if d then 1 else 0
  roles := fun _ _ => .validator
  peers_ne := by decide
  connections_ne := by decide

def duoManagers (e : Bool) : PeerManager := ⟨duo.peerIds e,fun _ => none,0,∅,[]⟩

def lostFirst : List PeerEvent :=
  [.newConnection true true,.newConnection true false,.newConnection false false,
    .disconnected false false .connectionLost,.newConnection false true]

theorem simultaneous_dial_converges_lostFirst :
    ∃ p, Run duo.step duo.Admits (start duoManagers) lostFirst p ∧
      ∀ e, duo.Active (p.managers e) e true ∧ duo.Notified (p.managers e) e := by
  have hrun : ∃ p, exec duo.step (start duoManagers) lostFirst = .ok p ∧
      ∀ e d, (e,d) ∈ p.opened := ⟨_,rfl,by decide⟩
  obtain ⟨p,hp,hall⟩ := hrun
  have h : Run duo.step duo.Admits (start duoManagers) lostFirst p := by
    refine .of_reaches (reaches_iff_exec.mpr hp) fun event _ q => ?_
    cases event with
    | newConnection e d => simp [Admits,PeerManager.rejects,conn,duo]
    | disconnected e d reason => trivial
  exact ⟨p,h,simultaneous_dial_converges (fun _ => rfl) (fun _ => AList.notMem_empty _) h hall⟩

end Dial

end Arx.Network
