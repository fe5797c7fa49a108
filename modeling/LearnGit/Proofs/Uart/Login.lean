import LearnGit.Uart.App.Login

/-!
# `LearnGit.Proofs.Uart.Login`: logins are rate limited, but not atomic

`logins_ok_iff` is about every sequence of requests with a clock that does not go back. Two logins
of a board that are accepted are more than 120 seconds apart, a board sees nothing of the requests
of the others, and a request that is rejected changes nothing. The tables keep their content at a
failed acknowledgement exactly where none fails: they are written before it is queued.
-/

set_option autoImplicit false

namespace LearnGit.Proofs.Uart

open LearnGit.Lib
open LearnGit.Uart.Link (Byte World linkSend)
open LearnGit.Uart.App

/-! ### Statement -/

/-- `depth_deal_login` lets the request through. -/
def Accepted (s : LoginState) (lg : LoginRequest) : Prop :=
  (depthDealLogin s.clientsLoginTimes lg.devId.toNat lg.now).2 = 0

/-- The entries of a board. -/
structure SameEntries (id : Byte) (s t : LoginState) : Prop where
  time : id.toNat > 0 → s.clientsLoginTimes (id.toNat - 1) = t.clientsLoginTimes (id.toNat - 1)
  proto : s.clientsProtoVersion id.toNat = t.clientsProtoVersion id.toNat
  fw : s.clientsFwVersion id.toNat = t.clientsFwVersion id.toNat

/-- The three tables are the same. -/
structure SameTables (s t : LoginState) : Prop where
  times : s.clientsLoginTimes = t.clientsLoginTimes
  proto : s.clientsProtoVersion = t.clientsProtoVersion
  fw : s.clientsFwVersion = t.clientsFwVersion

/-- The clock does not go back. -/
def ClockOk (lgs : List LoginRequest) : Prop := lgs.Pairwise fun a b => a.now.tvSec ≤ b.now.tvSec

/-- What is expected of a sequence of requests. -/
structure LoginsOk (bcfVersion : Byte) (lgs : List LoginRequest) : Prop where
  /-- Logins of a board are more than 120 seconds apart. -/
  limited : ∀ front a mid b, front ++ a :: (mid ++ [b]) <+: lgs → a.devId = b.devId →
    ∀ s t, (loginMachine bcfVersion).exec front = some s →
      (loginMachine bcfVersion).exec (front ++ a :: mid) = some t →
        Accepted s a → Accepted t b → 120 < b.now.tvSec - a.now.tvSec
  /-- A board's requests are answered, and its entries are, as if there were no other board. -/
  independent : ∀ front lg, front ++ [lg] <+: lgs →
    ∀ s, (loginMachine bcfVersion).exec front = some s →
      ∃ t, (loginMachine bcfVersion).exec (front.filter (·.devId = lg.devId)) = some t ∧
        SameEntries lg.devId s t ∧ (Accepted s lg ↔ Accepted t lg) ∧
        (handleLogin s lg).map (·.2) = (handleLogin t lg).map (·.2)
  /-- A request that is rejected changes nothing. -/
  rejected : ∀ front lg, front ++ [lg] <+: lgs →
    ∀ s, (loginMachine bcfVersion).exec front = some s → ¬Accepted s lg →
      handleLogin s lg = some (s, lg.world, 0)
  /-- A request that fails leaves the tables as they were. -/
  atomic : ∀ front lg, front ++ [lg] <+: lgs →
    ∀ s t w ret, (loginMachine bcfVersion).exec front = some s →
      handleLogin s lg = some (t, w, ret) → ret < 0 → SameTables s t

/-- Every login that is accepted finds memory for its acknowledgement. -/
def AcksQueued (bcfVersion : Byte) (lgs : List LoginRequest) : Prop :=
  ∀ front lg, front ++ [lg] <+: lgs → ∀ s, (loginMachine bcfVersion).exec front = some s →
    Accepted s lg → lg.mallocOk = true ∧ lg.dataOk = true

/-! ### One request -/

/-- What `depth_deal_login` asks for. -/
def Due (times : Nat → LoginTime) (id : Nat) (now : Timespec) : Prop :=
  (id < MAX_EXT_NUMBER ∧ id > 0) ∧
    (0 = (times (id - 1)).status ∨ now.tvSec - (times (id - 1)).lastLoginTime.tvSec > 2 * 60)

/-- A login that is due notes its time. -/
theorem depthDealLogin_of_due {times : Nat → LoginTime} {id : Nat} {now : Timespec}
    (h : Due times id now) :
    depthDealLogin times id now = (Function.update times (id - 1) ⟨now, 1⟩, 0) := by
  rw [depthDealLogin, if_pos h.1]
  rcases h.2 with hfirst | hlate
  · rw [if_pos hfirst]
  · rw [if_pos hlate, ite_self]

/-- A login that is not due is refused and changes nothing. -/
theorem depthDealLogin_of_not_due {times : Nat → LoginTime} {id : Nat} {now : Timespec}
    (h : ¬Due times id now) :
    (depthDealLogin times id now).1 = times ∧ (depthDealLogin times id now).2 < 0 := by
  rw [depthDealLogin]
  by_cases hrange : id < MAX_EXT_NUMBER ∧ id > 0
  · obtain ⟨hfirst, hlate⟩ := not_or.mp (not_and.mp h hrange)
    rw [if_pos hrange, if_neg hfirst, if_neg hlate]
    exact ⟨rfl, Int.negSucc_lt_zero 0⟩
  · rw [if_neg hrange]
    exact ⟨rfl, Int.negSucc_lt_zero 1⟩

/-- A login is accepted where it is due. -/
theorem accepted_iff {s : LoginState} {lg : LoginRequest} :
    Accepted s lg ↔ Due s.clientsLoginTimes lg.devId.toNat lg.now := by
  constructor
  · intro h
    by_contra hnot
    have hneg := (depthDealLogin_of_not_due hnot).2
    rw [Accepted] at h
    omega
  · intro h
    rw [Accepted, depthDealLogin_of_due h]

/-- The state behind a login. -/
def loggedIn (s : LoginState) (lg : LoginRequest) : LoginState :=
  recordLogin { s with
    clientsLoginTimes :=
      Function.update s.clientsLoginTimes (lg.devId.toNat - 1) ⟨lg.now, 1⟩ } lg

/-- A refused login changes nothing and sends nothing. -/
theorem handleLogin_rejected {s : LoginState} {lg : LoginRequest} (hflag : s.handleLoginFlag = 0)
    (h : ¬Accepted s lg) : handleLogin s lg = some (s, lg.world, 0) := by
  obtain ⟨htimes, hneg⟩ := depthDealLogin_of_not_due (fun hdue => h (accepted_iff.mpr hdue))
  rw [handleLogin, if_pos hflag.symm]
  simp only [htimes, if_pos hneg]
  rw [← hflag]

/-- An accepted login notes the device and queues the acknowledgement. -/
theorem handleLogin_accepted {s : LoginState} {lg : LoginRequest} (hflag : s.handleLoginFlag = 0)
    (h : Accepted s lg) :
    handleLogin s lg
      = (linkSend lg.world lg.mallocOk lg.dataOk lg.devId.toNat (some (loginAck s))).map
          fun r => (loggedIn s lg, r.1, if r.2 < 0 then r.2 else 0) := by
  have hdeal := depthDealLogin_of_due (accepted_iff.mp h)
  rw [handleLogin, if_pos hflag.symm]
  simp only [hdeal]
  rw [if_neg (by decide)]
  show (linkSend lg.world lg.mallocOk lg.dataOk lg.devId.toNat (some (loginAck s))).bind _ = _
  cases linkSend lg.world lg.mallocOk lg.dataOk lg.devId.toNat (some (loginAck s)) with
  | none => rfl
  | some r =>
    by_cases hret : r.2 < 0
    · simp [hret, loggedIn, recordLogin, hflag]
    · simp [hret, loggedIn, recordLogin, hflag]

/-- `link_send` fails exactly where one of its allocations does. -/
theorem linkSend_neg_iff {w w' : World} {mallocOk dataOk : Bool} {dst ret : Int} {buf : List Byte}
    (hne : ¬buf.length = 0) (h : linkSend w mallocOk dataOk dst (some buf) = some (w', ret)) :
    ret < 0 ↔ mallocOk = false ∨ dataOk = false := by
  cases mallocOk with
  | false =>
    have hret : some (w, (-1 : Int)) = some (w', ret) := by simpa [linkSend, hne] using h
    rw [← (Prod.mk.inj (Option.some.inj hret)).2]
    exact iff_of_true (by decide) (.inl rfl)
  | true =>
    cases dataOk with
    | false =>
      have hret : some (w, (-2 : Int)) = some (w', ret) := by simpa [linkSend, hne] using h
      rw [← (Prod.mk.inj (Option.some.inj hret)).2]
      exact iff_of_true (by decide) (.inr rfl)
    | true =>
      simp only [linkSend, hne, if_false, Bool.not_true, Bool.false_eq_true, Option.bind_eq_bind,
        Option.bind_eq_some_iff] at h
      obtain ⟨w₁, -, hsend⟩ := h
      split at hsend
      case isTrue =>
        obtain ⟨w₂, -, hret⟩ := Option.bind_eq_some_iff.mp hsend
        rw [← (Prod.mk.inj (Option.some.inj hret)).2]
        exact iff_of_false (by decide) (by decide)
      case isFalse => cases hsend

/-! ### Runs -/

/-- What every request finds. -/
structure LoginReady (bcfVersion : Byte) (s : LoginState) : Prop where
  flag : s.handleLoginFlag = 0
  version : s.bcfVersion = bcfVersion

/-- What a request can do to the state. -/
theorem login_step_cases {bcfVersion : Byte} {s t : LoginState} {lg : LoginRequest}
    (hready : LoginReady bcfVersion s) (h : (loginMachine bcfVersion).step s lg = some t) :
    (¬Accepted s lg ∧ t = s) ∨ (Accepted s lg ∧ t = loggedIn s lg) := by
  have hstep : (handleLogin s lg).map Prod.fst = some t := h
  by_cases haccept : Accepted s lg
  · rw [handleLogin_accepted hready.flag haccept, Option.map_map] at hstep
    obtain ⟨r, -, hr⟩ := Option.map_eq_some_iff.mp hstep
    exact .inr ⟨haccept, hr.symm⟩
  · rw [handleLogin_rejected hready.flag haccept] at hstep
    exact .inl ⟨haccept, (Option.some.inj hstep).symm⟩

/-- A login keeps the state ready. -/
theorem login_ready_step {bcfVersion : Byte} {s t : LoginState} {lg : LoginRequest}
    (hready : LoginReady bcfVersion s) (h : (loginMachine bcfVersion).step s lg = some t) :
    LoginReady bcfVersion t := by
  rcases login_step_cases hready h with ⟨-, rfl⟩ | ⟨-, rfl⟩
  · exact hready
  · exact ⟨hready.flag, hready.version⟩

/-- Every run of logins keeps the state ready. -/
theorem login_ready {bcfVersion : Byte} {lgs : List LoginRequest} {s : LoginState}
    (h : (loginMachine bcfVersion).exec lgs = some s) : LoginReady bcfVersion s :=
  (Machine.Run.of_exec h).invariant ⟨rfl, rfl⟩ fun _ _ _ _ hready hstep =>
    login_ready_step hready hstep

/-- Behind a login, the time of the board is that of the login or later, as long as the clock does
not go back. -/
theorem login_time_kept {bcfVersion : Byte} {front mid : List LoginRequest} {a : LoginRequest}
    {s t : LoginState} (hs : (loginMachine bcfVersion).exec front = some s) (haccept : Accepted s a)
    (hclock : ∀ c ∈ mid, a.now.tvSec ≤ c.now.tvSec)
    (ht : (loginMachine bcfVersion).exec (front ++ a :: mid) = some t) :
    (t.clientsLoginTimes (a.devId.toNat - 1)).status = 1 ∧
      a.now.tvSec ≤ (t.clientsLoginTimes (a.devId.toNat - 1)).lastLoginTime.tvSec := by
  -- Induction on the requests behind the login. Each of them leaves the entry alone, or is a later
  -- login of the board.
  induction mid using List.reverseRecOn generalizing t with
  | nil =>
    obtain ⟨s', hs', hstep⟩ := Machine.exec_snoc.mp ht
    rw [hs] at hs'
    rw [← Option.some.inj hs'] at hstep
    rcases login_step_cases (login_ready hs) hstep with ⟨hnot, -⟩ | ⟨-, rfl⟩
    · exact absurd haccept hnot
    · simp [loggedIn, recordLogin]
  | append_singleton mid c ih =>
    rw [← List.cons_append, ← List.append_assoc] at ht
    obtain ⟨u, hu, hstep⟩ := Machine.exec_snoc.mp ht
    have hkept := ih (fun d hd => hclock d (List.mem_append_left _ hd)) hu
    rcases login_step_cases (login_ready hu) hstep with ⟨-, rfl⟩ | ⟨-, rfl⟩
    · exact hkept
    · by_cases hsame : a.devId.toNat - 1 = c.devId.toNat - 1
      · simp [loggedIn, recordLogin, hsame, hclock c (by simp)]
      · simpa [loggedIn, recordLogin, Function.update_of_ne hsame] using hkept

/-- The rate limit. -/
theorem logins_limited {bcfVersion : Byte} {front mid : List LoginRequest} {a b : LoginRequest}
    {s t : LoginState} (hid : a.devId = b.devId)
    (hclock : ∀ c ∈ mid, a.now.tvSec ≤ c.now.tvSec)
    (hs : (loginMachine bcfVersion).exec front = some s)
    (ht : (loginMachine bcfVersion).exec (front ++ a :: mid) = some t) (ha : Accepted s a)
    (hb : Accepted t b) : 120 < b.now.tvSec - a.now.tvSec := by
  obtain ⟨hstatus, htime⟩ := login_time_kept hs ha hclock ht
  rw [hid] at hstatus htime
  rcases (accepted_iff.mp hb).2 with hfirst | hlate
  · rw [hstatus] at hfirst
    exact absurd hfirst (by decide)
  · omega

/-- Requests of other boards leave the entries of a board alone. -/
theorem login_other {bcfVersion : Byte} {s t : LoginState} {lg : LoginRequest} {id : Byte}
    (hready : LoginReady bcfVersion s) (hne : lg.devId ≠ id)
    (h : (loginMachine bcfVersion).step s lg = some t) : SameEntries id t s := by
  rcases login_step_cases hready h with ⟨-, rfl⟩ | ⟨haccept, rfl⟩
  · exact ⟨fun _ => rfl, rfl, rfl⟩
  · have hid : id.toNat ≠ lg.devId.toNat := fun heq => hne (UInt8.toNat_inj.mp heq).symm
    have hpos := (accepted_iff.mp haccept).1.2
    refine ⟨fun hid' => ?_, ?_, ?_⟩
    · exact Function.update_of_ne (by omega) _ _
    · exact Function.update_of_ne hid _ _
    · exact Function.update_of_ne hid _ _

/-- What the other devices did has no part in whether a login is accepted. -/
theorem SameEntries.accepted_iff {s t : LoginState} {lg : LoginRequest}
    (h : SameEntries lg.devId s t) : Accepted s lg ↔ Accepted t lg := by
  rw [Uart.accepted_iff, Uart.accepted_iff, Due, Due]
  refine and_congr_right fun hrange => ?_
  rw [h.time hrange.2]

/-- A request is answered by the entries of its board alone. -/
theorem SameEntries.handleLogin_eq {bcfVersion : Byte} {s t : LoginState} {lg : LoginRequest}
    (h : SameEntries lg.devId s t) (hs : LoginReady bcfVersion s) (ht : LoginReady bcfVersion t) :
    (handleLogin s lg).map (·.2) = (handleLogin t lg).map (·.2) := by
  by_cases haccept : Accepted s lg
  · have hack : loginAck s = loginAck t := by rw [loginAck, loginAck, hs.version, ht.version]
    rw [handleLogin_accepted hs.flag haccept,
      handleLogin_accepted ht.flag (h.accepted_iff.mp haccept), hack, Option.map_map,
      Option.map_map]
    rfl
  · rw [handleLogin_rejected hs.flag haccept,
      handleLogin_rejected ht.flag fun hacc => haccept (h.accepted_iff.mpr hacc)]
    rfl

/-- A request leaves the entries of its board alike where they were. -/
theorem SameEntries.step {bcfVersion : Byte} {s s' t : LoginState} {lg : LoginRequest}
    (h : SameEntries lg.devId s t) (hs : LoginReady bcfVersion s) (ht : LoginReady bcfVersion t)
    (hstep : (loginMachine bcfVersion).step s lg = some s') :
    ∃ t', (loginMachine bcfVersion).step t lg = some t' ∧ SameEntries lg.devId s' t' := by
  have hsome : ∃ t', (loginMachine bcfVersion).step t lg = some t' := by
    obtain ⟨r, hr, -⟩ := Option.map_eq_some_iff.mp hstep
    have hret := h.handleLogin_eq hs ht
    rw [hr] at hret
    obtain ⟨r', hr', -⟩ := Option.map_eq_some_iff.mp hret.symm
    exact ⟨r'.1, Option.map_eq_some_iff.mpr ⟨r', hr', rfl⟩⟩
  obtain ⟨t', ht'⟩ := hsome
  refine ⟨t', ht', ?_⟩
  rcases login_step_cases hs hstep with ⟨hnot, rfl⟩ | ⟨hacc, rfl⟩ <;>
    rcases login_step_cases ht ht' with ⟨hnot', rfl⟩ | ⟨hacc', rfl⟩
  · exact h
  · exact absurd (h.accepted_iff.mpr hacc') hnot
  · exact absurd (h.accepted_iff.mp hacc) hnot'
  · refine ⟨fun _ => ?_, ?_, ?_⟩ <;> simp [loggedIn, recordLogin]

/-- The entries of a board come of its own requests. -/
theorem login_entries {bcfVersion : Byte} (id : Byte) {front : List LoginRequest} {s : LoginState}
    (h : (loginMachine bcfVersion).exec front = some s) :
    ∃ t, (loginMachine bcfVersion).exec (front.filter (·.devId = id)) = some t ∧
      SameEntries id s t := by
  induction front using List.reverseRecOn generalizing s with
  | nil => exact ⟨s, h, fun _ => rfl, rfl, rfl⟩
  | append_singleton front lg ih =>
    obtain ⟨u, hu, hstep⟩ := Machine.exec_snoc.mp h
    obtain ⟨t, ht, hsame⟩ := ih hu
    rw [List.filter_append]
    by_cases hid : lg.devId = id
    · -- The request is in both sequences, and finds the same entries in both.
      rw [List.filter_cons_of_pos (by simpa using hid), List.filter_nil]
      rw [← hid] at hsame ht ⊢
      obtain ⟨t', ht', hsame'⟩ := hsame.step (login_ready hu) (login_ready ht) hstep
      exact ⟨t', Machine.exec_snoc.mpr ⟨t, ht, ht'⟩, hsame'⟩
    · rw [List.filter_cons_of_neg (by simpa using hid), List.filter_nil, List.append_nil]
      have hother := login_other (login_ready hu) hid hstep
      refine ⟨t, ht, fun hpos => ?_, ?_, ?_⟩
      · rw [hother.time hpos, hsame.time hpos]
      · rw [hother.proto, hsame.proto]
      · rw [hother.fw, hsame.fw]

/-- A login changes the time of its board. -/
theorem not_sameTables {s : LoginState} {lg : LoginRequest} (h : Accepted s lg) :
    ¬SameTables s (loggedIn s lg) := by
  intro hsame
  -- An entry that stays as it is had this time already, and would not be due.
  have hentry : s.clientsLoginTimes (lg.devId.toNat - 1) = ⟨lg.now, 1⟩ := by
    rw [hsame.times]
    exact Function.update_self _ _ _
  rcases (accepted_iff.mp h).2 with hfirst | hlate
  · rw [hentry] at hfirst
    exact absurd (show (0 : Int) = 1 from hfirst) (by decide)
  · rw [hentry] at hlate
    have hself : lg.now.tvSec - lg.now.tvSec > 2 * 60 := hlate
    omega

/-- A request that fails was accepted, and its acknowledgement found no memory. -/
theorem handleLogin_neg {s t : LoginState} {lg : LoginRequest} {w : World} {ret : Int}
    (hflag : s.handleLoginFlag = 0) (h : handleLogin s lg = some (t, w, ret)) :
    ret < 0 ↔ Accepted s lg ∧ (lg.mallocOk = false ∨ lg.dataOk = false) := by
  by_cases haccept : Accepted s lg
  · rw [handleLogin_accepted hflag haccept] at h
    obtain ⟨r, hsend, hr⟩ := Option.map_eq_some_iff.mp h
    have hret : (if r.2 < 0 then r.2 else 0) = ret := (Prod.mk.inj (Prod.mk.inj hr).2).2
    have hack : ¬(loginAck s).length = 0 := Nat.succ_ne_zero 2
    have hneg := linkSend_neg_iff hack hsend
    rw [← hret, ← hneg, and_iff_right haccept]
    split
    · exact Iff.rfl
    · rename_i hnot
      exact iff_of_false (by decide) hnot
  · rw [handleLogin_rejected hflag haccept] at h
    rw [← (Prod.mk.inj (Prod.mk.inj (Option.some.inj h)).2).2]
    exact iff_of_false (by decide) fun hacc => haccept hacc.1

/-- Every sequence of requests with a clock that does not go back is limited to a login of a board in
120 seconds, keeps the boards apart and changes nothing at a rejected request. It is atomic too if
and only if every login that is accepted finds memory for its acknowledgement. -/
theorem logins_ok_iff (bcfVersion : Byte) (lgs : List LoginRequest) (hclock : ClockOk lgs)
    (s : LoginState) (h : (loginMachine bcfVersion).exec lgs = some s) :
    LoginsOk bcfVersion lgs ↔ AcksQueued bcfVersion lgs := by
  constructor
  · intro hok front lg hfront t ht haccept
    obtain ⟨u, hu⟩ := Machine.exec_of_isPrefix hfront h
    obtain ⟨t', ht', hstep⟩ := Machine.exec_snoc.mp hu
    rw [← Option.some.inj (ht.symm.trans ht')] at hstep
    obtain ⟨r, hr, rfl⟩ := Option.map_eq_some_iff.mp hstep
    -- Without memory the login fails, and its time is recorded nevertheless.
    by_contra hmem
    have hfail : lg.mallocOk = false ∨ lg.dataOk = false :=
      (not_and_or.mp hmem).imp Bool.eq_false_iff.mpr Bool.eq_false_iff.mpr
    have hneg := (handleLogin_neg (login_ready ht).flag hr).mpr ⟨haccept, hfail⟩
    have hsame := hok.atomic front lg hfront t r.1 r.2.1 r.2.2 ht hr hneg
    rcases login_step_cases (login_ready ht) hstep with ⟨hnot, -⟩ | ⟨-, hnext⟩
    · exact hnot haccept
    · rw [hnext] at hsame
      exact not_sameTables haccept hsame
  · intro hmem
    refine ⟨?_, ?_, ?_, ?_⟩
    · intro front a mid b hfront hid t u ht hu ha hb
      have hsorted : (front ++ a :: (mid ++ [b])).Pairwise fun a b => a.now.tvSec ≤ b.now.tvSec :=
        hclock.sublist hfront.sublist
      have hbehind := (List.pairwise_cons.mp (List.pairwise_append.mp hsorted).2.1).1
      exact logins_limited hid (fun c hc => hbehind c (List.mem_append_left _ hc)) ht hu ha hb
    · intro front lg _ t ht
      obtain ⟨u, hu, hsame⟩ := login_entries lg.devId ht
      refine ⟨u, hu, hsame, hsame.accepted_iff, ?_⟩
      exact hsame.handleLogin_eq (login_ready ht) (login_ready hu)
    · intro front lg _ t ht hnot
      exact handleLogin_rejected (login_ready ht).flag hnot
    · intro front lg hfront t u w ret ht hr hneg
      obtain ⟨haccept, hfail⟩ := (handleLogin_neg (login_ready ht).flag hr).mp hneg
      obtain ⟨hmalloc, hdata⟩ := hmem front lg hfront t ht haccept
      rw [hmalloc, hdata] at hfail
      exact absurd hfail (by decide)

/-- A login request of board 1 at this second. -/
def boardOne (tvSec : Int) (mallocOk : Bool) : LoginRequest where
  devId := 1
  protoVersion := 2
  fwVersion := 3
  now := ⟨tvSec, 0⟩
  world := World.init
  mallocOk := mallocOk
  dataOk := true
  toGuiLogin := true

/-- Board 1 asks three times, twice within two minutes. -/
theorem logins_ok_three :
    LoginsOk 0 [boardOne 0 true, boardOne 60 true, boardOne 121 true] := by
  obtain ⟨s, hs⟩ : ∃ s, (loginMachine 0).exec [boardOne 0 true, boardOne 60 true, boardOne 121 true]
      = some s := ⟨_, rfl⟩
  have hclock : ClockOk [boardOne 0 true, boardOne 60 true, boardOne 121 true] := by
    rw [ClockOk]
    decide
  refine (logins_ok_iff 0 _ hclock s hs).mpr fun front lg hfront _ _ _ => ?_
  have hmem : lg ∈ [boardOne 0 true, boardOne 60 true, boardOne 121 true] :=
    hfront.subset (by simp)
  simp only [List.mem_cons, List.not_mem_nil, or_false] at hmem
  rcases hmem with rfl | rfl | rfl <;> exact ⟨rfl, rfl⟩

/-- The first login of board 1 finds no memory: it fails, and the board is locked out. -/
theorem failed_login_recorded : ¬LoginsOk 0 [boardOne 0 false] := by
  intro h
  have haccept : Accepted (LoginState.init 0) (boardOne 0 false) := rfl
  have hsame := h.atomic [] (boardOne 0 false) List.prefix_rfl (LoginState.init 0)
    (loggedIn (LoginState.init 0) (boardOne 0 false)) World.init (-1) rfl rfl (by decide)
  exact not_sameTables haccept hsame

end LearnGit.Proofs.Uart
