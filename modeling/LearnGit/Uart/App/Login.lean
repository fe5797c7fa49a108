import LearnGit.Lib.Machine
import LearnGit.Uart.App.AppProto
import LearnGit.Uart.Link.World

/-!
# `LearnGit.Uart.App.Login`: the login of extern boards

`handle_login` and `depth_deal_login`. The main board keeps for each extern board when it logged in
last, and lets it log in again after two minutes. The login is acknowledged with `link_send`.

A request comes with what the call finds outside: the clock, the link layer, the outcomes of
`malloc`, and whether the GUI has set its callback. Nothing else in `app_proto.c` writes the tables
after `app_proto_init`. A call is `none` where `link_send` does not return.
-/

set_option autoImplicit false

namespace LearnGit.Uart.App

open LearnGit.Lib
open LearnGit.Uart.Link (Byte World linkSend)

def MAX_EXT_NUMBER : Nat := 10

/-- `struct timespec`. -/
structure Timespec where
  tvSec : Int
  tvNsec : Int
  deriving DecidableEq, Repr

/-- `logintime`. -/
structure LoginTime where
  lastLoginTime : Timespec
  status : Int
  deriving DecidableEq, Repr

/-- The globals of the login, and `handle_login_flag`. `guiLogins` are the calls of
`to_gui_login`. -/
structure LoginState where
  clientsLoginTimes : Nat → LoginTime
  clientsProtoVersion : Nat → Byte
  clientsFwVersion : Nat → Byte
  bcfVersion : Byte
  handleLoginFlag : Int
  guiLogins : List (Byte × Byte)

/-- `app_proto_login_t`, and what the call finds. -/
structure LoginRequest where
  devId : Byte
  protoVersion : Byte
  fwVersion : Byte
  now : Timespec
  world : World
  mallocOk : Bool
  dataOk : Bool
  toGuiLogin : Bool

/-- `depth_deal_login`. -/
def depthDealLogin (times : Nat → LoginTime) (id : Nat) (now : Timespec) :
    (Nat → LoginTime) × Int :=
  if id < MAX_EXT_NUMBER ∧ id > 0 then
    if 0 = (times (id - 1)).status then (Function.update times (id - 1) ⟨now, 1⟩, 0)
    else if now.tvSec - (times (id - 1)).lastLoginTime.tvSec > 2 * 60 then
      (Function.update times (id - 1) ⟨now, 1⟩, 0)
    else (times, -1)
  else (times, -2)

/-- The acknowledgement of a login. -/
def loginAck (s : LoginState) : List Byte := [0x80 ||| AppCmd.e2mLogin.code, s.bcfVersion, 0xFF]

/-- What `handle_login` records of a request that `depth_deal_login` lets through. -/
def recordLogin (s : LoginState) (lg : LoginRequest) : LoginState :=
  { s with
    guiLogins :=
      if lg.toGuiLogin then s.guiLogins ++ [(lg.devId, lg.fwVersion)] else s.guiLogins
    clientsProtoVersion :=
      Function.update s.clientsProtoVersion lg.devId.toNat lg.protoVersion
    clientsFwVersion := Function.update s.clientsFwVersion lg.devId.toNat lg.fwVersion }

/-- `handle_login`: the state, the link layer and the return value. -/
def handleLogin (s : LoginState) (lg : LoginRequest) : Option (LoginState × World × Int) :=
  if 0 = s.handleLoginFlag then
    let s := { s with handleLoginFlag := 1 }
    let deal := depthDealLogin s.clientsLoginTimes lg.devId.toNat lg.now
    let s := { s with clientsLoginTimes := deal.1 }
    if deal.2 < 0 then some ({ s with handleLoginFlag := 0 }, lg.world, 0)
    else do
      let s := recordLogin s lg
      let (w, ret) ← linkSend lg.world lg.mallocOk lg.dataOk lg.devId.toNat (some (loginAck s))
      if ret < 0 then return ({ s with handleLoginFlag := 0 }, w, ret)
      else return ({ s with handleLoginFlag := 0 }, w, 0)
  else some (s, lg.world, 0)

/-- The state behind `app_proto_init`, with some version numbers. -/
def LoginState.init (bcfVersion : Byte) : LoginState where
  clientsLoginTimes := fun _ => ⟨⟨0, 0⟩, 0⟩
  clientsProtoVersion := fun _ => 0
  clientsFwVersion := fun _ => 0
  bcfVersion := bcfVersion
  handleLoginFlag := 0
  guiLogins := []

/-- The requests that come one after the other. -/
def loginMachine (bcfVersion : Byte) : Machine LoginState LoginRequest where
  init := LoginState.init bcfVersion
  step := fun s lg => (handleLogin s lg).map Prod.fst

end LearnGit.Uart.App
