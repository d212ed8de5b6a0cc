/-
Rms.Channel — `rms_channel.c`: opening, connecting, joining and closing a
channel.

A channel is a record of the caller with a mark `init` and a pointer to a
`rms_meta_channel`; the control block has the queues `mq_channels` and
`mq_channels_tmp`. `channels c` is `none` once `rms_channel_close` has
freed the record. A call that reads a freed record, or follows a
`meta_channel` that was never set, has no result.

Two statements of the source look like assignments to `init` and are
comparisons (`channel->init == 321;` and `channel->init == -1;`); they do
nothing here either. `mqueue_remove` has one parameter and takes the
first element of the queue, whatever `rms_channel_close` passes after it.
`channel->connected` is read as the field of the `meta_channel`, the only
record that has one.

`McastBlock` adds what only `rms_channel_join` sets. `rms_internal.h` has
no field `group`; it is taken as the source uses it.
-/
import Mathlib.Logic.Function.Basic

namespace Rms.Channel

def rmsErrDstructInit : Int := -20012
def rmsErrChannelOpened : Int := -20021
def rmsErrChannelConnected : Int := -20022
def rmsErrSockInit : Int := -20031

/-- The fields of `rms_meta_channel` that the three functions set, and the
messages in its queues. -/
structure RmsMetaChannel where
  id : Nat
  port : Int
  sock : Int
  isMcast : Bool
  ttl : Nat
  mcastReTX : Int
  connected : Bool
  mqOutBuf : List Nat
  mqInBuf : List Nat
  sqIn : List Nat

structure RmsChannel where
  metaChannel : Option Nat
  init : Int

structure Rmscb where
  error : Int
  nChannels : Nat
  mqChannels : List Nat
  mqChannelsTmp : List Nat
  channels : Nat → Option RmsChannel
  metas : Nat → RmsMetaChannel
  nmetas : Nat

def Rmscb.setChannel (cb : Rmscb) (c : Nat) (channel : Option RmsChannel) : Rmscb :=
  { cb with channels := Function.update cb.channels c channel }

def Rmscb.setMeta (cb : Rmscb) (mp : Nat) (mc : RmsMetaChannel) : Rmscb :=
  { cb with metas := Function.update cb.metas mp mc }

/-- The `meta_channel` of a new channel. -/
def metaChannelInit (id : Nat) : RmsMetaChannel :=
  { id := id, port := 0, sock := 0, isMcast := false, ttl := 255, mcastReTX := 0
    connected := false, mqOutBuf := [], mqInBuf := [], sqIn := [] }

/-- `rms_channel_open`. `inits` are the results of the eight initialisations
of queues and tables; each failure is handled alike. -/
def rmsChannelOpen (cb : Rmscb) (c : Nat) (inits : List Int) : Option (Int × Rmscb) :=
  match cb.channels c with
  | none => none
  | some channel =>
      if channel.init = 321 then some (-1, { cb with error := rmsErrChannelOpened })
      else
        let mp := cb.nmetas
        let cb := { cb.setMeta mp (metaChannelInit cb.nChannels) with
          nmetas := cb.nmetas + 1, nChannels := cb.nChannels + 1 }
        if inits.any (· < 0) then
          some (-1, { cb.setChannel c (some { channel with metaChannel := none }) with
            error := rmsErrDstructInit })
        else
          -- the statement after the registration compares `init` with 321
          some (0, { cb.setChannel c (some { channel with metaChannel := some mp }) with
            mqChannels := c :: cb.mqChannels })

/-- `rms_channel_connect`. `sock` is the result of `init_dgram_sock`. -/
def rmsChannelConnect (cb : Rmscb) (c : Nat) (port sock : Int) : Option (Int × Rmscb) :=
  match cb.channels c with
  | none => none
  | some channel =>
      match channel.metaChannel with
      | none => none
      | some mp =>
          let mc := cb.metas mp
          let mc := { mc with
            port := if mc.port ≤ 0 then port else mc.port, sock := sock, isMcast := false }
          let cb := cb.setMeta mp mc
          if sock < 0 then
            some (-1, { cb.setChannel c (some { channel with metaChannel := none }) with
              error := rmsErrSockInit })
          else if mc.connected then some (-1, { cb with error := rmsErrChannelConnected })
          else
            some (0, { cb.setMeta mp { mc with connected := true } with
              mqChannelsTmp := c :: cb.mqChannelsTmp })

/-- `rms_channel_close`. The test at its head is the one of
`rms_channel_open`, and so are the values it sets; the queues are emptied
and destroyed. -/
def rmsChannelClose (cb : Rmscb) (c : Nat) : Option (Int × Rmscb) :=
  match cb.channels c with
  | none => none
  | some channel =>
      if channel.init = 321 then some (-1, { cb with error := rmsErrChannelOpened })
      else
        match channel.metaChannel with
        | none => none
        | some mp =>
            let mc := { metaChannelInit cb.nChannels with connected := (cb.metas mp).connected }
            some (0, { (cb.setMeta mp mc).setChannel c none with
              nChannels := cb.nChannels + 1, mqChannels := cb.mqChannels.tail })

/-! ## Sockets -/

/-- What the system calls return: `socket` and `bind`, then the three
`setsockopt` of `rms_channel_join`. -/
structure SockCalls where
  socket : Int
  bind : Int
  ttl : Int
  loop : Int
  member : Int

def initDgramSock (s : SockCalls) : Int :=
  if s.socket < 0 then s.socket
  else if s.bind < 0 then s.bind
  else s.socket

/-! ## Joining a group -/

/-- `sin_port` is the number of the port, whatever its byte order. -/
structure SockaddrIn where
  sinFamily : UInt16
  sAddr : UInt32
  sinPort : UInt16
  sinZero : UInt64
  deriving DecidableEq, Repr

/-- The fields of `rms_meta_channel` that only `rms_channel_join` sets. -/
structure MetaMcast where
  group : Option (List UInt8)
  toAddr : SockaddrIn
  active : Bool

/-- The control block with these fields. -/
structure McastBlock extends Rmscb where
  mcasts : Nat → MetaMcast

/-- `inet_addr`, and `RMS_ERR_SOCK_OPT`, which `rms.h` does not define. -/
structure McastEnv where
  inetAddr : List UInt8 → UInt32
  rmsErrSockOpt : Int

/-- The address of a group: the record is cleared, then three fields are
set. `AF_INET` is 2. -/
def McastEnv.toAddr (env : McastEnv) (group : List UInt8) (port : Int) : SockaddrIn :=
  ⟨2, env.inetAddr group, UInt16.ofNat (port % 65536).toNat, 0⟩

/-- `rms_channel_connect` with its calls of `socket` and `bind`. -/
def rmsChannelConnectSock (cb : McastBlock) (c : Nat) (port : Int) (s : SockCalls) :
    Option (Int × McastBlock) :=
  (rmsChannelConnect cb.toRmscb c port (initDgramSock s)).map fun r =>
    (r.1, { cb with toRmscb := r.2 })

/-- `rms_channel_join`. `alloc_strcpy` leaves `group` as it was if it is given
NULL, and `inet_addr(NULL)` has no result. -/
def rmsChannelJoin (env : McastEnv) (cb : McastBlock) (c : Nat) (group : Option (List UInt8))
    (port : Int) (s : SockCalls) : Option (Int × McastBlock) :=
  match (cb.channels c).bind (·.metaChannel) with
  | none => none
  | some mp =>
      let mc := { cb.metas mp with port := port, sock := initDgramSock s, isMcast := true }
      let cb := { cb with toRmscb := cb.setMeta mp mc }
      -- the only failure that sets no error
      if s.ttl < 0 then some (-1, cb)
      else if s.loop ≠ 0 then some (-1, { cb with error := env.rmsErrSockOpt })
      else
        match group <|> (cb.mcasts mp).group with
        | none => none
        | some g =>
            let mcast := { cb.mcasts mp with group := some g, toAddr := env.toAddr g port }
            let cb := { cb with mcasts := Function.update cb.mcasts mp mcast }
            if s.member < 0 then some (-1, { cb with error := env.rmsErrSockOpt })
            else
              let cb := { cb with
                toRmscb := cb.setMeta mp { mc with connected := true }
                mcasts := Function.update cb.mcasts mp { mcast with active := true } }
              some (0, { cb with mqChannelsTmp := c :: cb.mqChannelsTmp })

/-! ## Sequences of calls -/

/-- A call. `sock` is the socket that `rms_channel_connect` gets. -/
inductive Call
  | openCh (c : Nat)
  | connect (c : Nat) (port : Int) (sock : Nat)
  | close (c : Nat)

/-- The result of a call when every allocation and every socket call
succeeds. -/
def call (cb : Rmscb) : Call → Option (Int × Rmscb)
  | .openCh c => rmsChannelOpen cb c (List.replicate 8 0)
  | .connect c port sock => rmsChannelConnect cb c port sock
  | .close c => rmsChannelClose cb c

/-- A value of `init` other than the mark. -/
abbrev Unmarked := { init : Int // init ≠ 321 }

/-- No channel is open, and no record has the mark. -/
def start (inits : Nat → Unmarked) (metas : Nat → RmsMetaChannel) : Rmscb :=
  { error := 0, nChannels := 0, mqChannels := [], mqChannelsTmp := []
    channels := fun c => some ⟨none, inits c⟩, metas := metas, nmetas := 0 }

end Rms.Channel
