import LearnGit.Lib.Numeral
import LearnGit.WideChar.PhoneCommon

/-!
# `LearnGit.WideChar.LanStrings`: the strings of a language as C source

`wide_char/language_strings_tool/strings_tool/src/lan_strings.c` writes a line of C for each
string of a language, and at the end a file with the characters above 0x7e that occur in them.

The document is what is left of it after `mxml_read`: the child `Language`, whether that has the
two attributes that are asked for, and the data of the first child of each name. No call fails
otherwise. A `wchar_t` is signed, and is kept as the 32 bits of it.
-/

set_option autoImplicit false

namespace LearnGit.WideChar

open LearnGit.Lib

abbrev Name := List Byte

/-- The bytes of a text. -/
def ascii (text : String) : List Byte := text.toByteArray.data.toList

/-- The size of `str_value`, `hex_value` and `str_content`. -/
def BUFFER : Nat := 1024

/-- A string that was written, with the name of it. -/
structure Line where
  name : Name
  value : List WChar
  deriving DecidableEq, Repr

/-- The global variables and the open files. -/
structure LanState where
  text : List WChar
  maxUnicode : WChar
  minUnicode : WChar
  idCount : Nat
  arrFile : List Byte
  defineFile : List Byte
  idFile : List Byte
  /-- The lines of `arr_file`. -/
  lines : List Line
  deriving DecidableEq, Repr

def LanState.init : LanState where
  text := []
  maxUnicode := 0
  minUnicode := 0xffffffff
  idCount := 0x1000
  arrFile := []
  defineFile := []
  idFile := []
  lines := []

/-! ### A string -/

/-- `collect_char`. The message of a full `text` is left out. -/
def collectChar (s : LanState) (ch : WChar) : LanState :=
  if 1023 ≤ s.text.length then s
  else if ch ∈ s.text then s
  else
    { s with
      text := s.text ++ [ch]
      maxUnicode := if s.maxUnicode < ch then ch else s.maxUnicode
      minUnicode := if ch < s.minUnicode then ch else s.minUnicode }

/-- `"0x%x, "`. -/
def hexItem (c : WChar) : List Byte := ascii "0x" ++ printNat 16 c.toNat ++ ascii ", "

/-- `c > 0x7e`. A character from `2 ^ 31` on is negative. -/
def isHigh (c : WChar) : Prop := 0x7e < c ∧ c.toNat < 2 ^ 31

instance (c : WChar) : Decidable (isHigh c) :=
  inferInstanceAs (Decidable (0x7e < c ∧ c.toNat < 2 ^ 31))

/-- `make_wchar_to_hex_string`. -/
def makeWcharToHexString : LanState → List WChar → List Byte → Except Fault (List Byte × LanState)
  | s, [], dest => .ok (dest, s)
  | s, c :: src, dest =>
    if BUFFER ≤ (dest ++ hexItem c).length then .error .undefined
    else
      makeWcharToHexString (if isHigh c then collectChar s c else s) src (dest ++ hexItem c)

/-- A wide string up to its NUL. -/
def wcs (chars : List WChar) : List WChar := chars.takeWhile (· ≠ 0)

/-- What `_language_get_strings` makes of the data of a node: `str_value`, or `none` where it
returns. A node without data has an empty string. -/
def strValue : Option (List Byte) → Except Fault (Option (List WChar))
  | none => .ok (some [])
  | some data =>
    match pjAnsiToUnicodeLen data with
    | .error f => .error f
    | .ok wlen =>
      if wlen = -1 then .ok none
      -- The NUL is written to `str_value[wlen]`.
      else if (BUFFER : Int) ≤ wlen then .error .undefined
      else
        match pjAnsiToUnicode data (UInt64.ofNat (wlen.toNat * SIZEOF_WCHAR)) with
        | .error f => .error f
        | .ok r => .ok (some (wcs r.buf))

/-- `"static const wchar_t str_%s[] = {%s0x0};\n"`. -/
def arrLine (name : Name) (hexValue : List Byte) : List Byte :=
  ascii "static const wchar_t str_" ++ name ++ ascii "[] = \x7b" ++ hexValue
    ++ ascii "0x0\x7d;\n"

/-- `"#define ID_%s    0x%x\n"`. -/
def defineLine (name : Name) (idCount : Nat) : List Byte :=
  ascii "#define ID_" ++ name ++ ascii "    0x" ++ printNat 16 idCount ++ ascii "\n"

/-- `"{ID_%s, str_%s},\n"`. -/
def idLine (name : Name) : List Byte :=
  ascii "\x7bID_" ++ name ++ ascii ", str_" ++ name ++ ascii "\x7d,\n"

/-- The lines that `_language_get_strings` writes for a string. -/
def writeLines (s : LanState) (name : Name) (value : List WChar) : Except Fault LanState :=
  match makeWcharToHexString s value [] with
  | .error f => .error f
  | .ok (hexValue, s) =>
    if BUFFER ≤ (arrLine name hexValue).length ∨ BUFFER ≤ (defineLine name s.idCount).length ∨
        BUFFER ≤ (idLine name).length then .error .undefined
    else
      .ok { s with
        arrFile := s.arrFile ++ arrLine name hexValue
        defineFile := s.defineFile ++ defineLine name s.idCount
        idCount := s.idCount + 1
        idFile := s.idFile ++ idLine name
        lines := s.lines ++ [⟨name, value⟩] }

/-! ### The program -/

/-- The node `Language`: whether it has the attributes `Type` and `Name`, and the data of the
child of a name, when there is one. -/
structure Language where
  hasType : Bool
  hasName : Bool
  findchild : Name → Option (Option (List Byte))

/-- `_language_get_strings`. -/
def languageGetStrings (lang : Language) (s : LanState) (strName : Name) :
    Except Fault (Int × LanState) :=
  match lang.findchild strName with
  | none => .ok (-1, s)
  | some data =>
    match strValue data with
    | .error f => .error f
    | .ok none => .ok (-1, s)
    | .ok (some value) =>
      match writeLines s strName value with
      | .error f => .error f
      | .ok s => .ok (0, s)

/-- The calls of `_language_get_strings`, one after the other. -/
def loadStrings (lang : Language) : List Name → LanState → Except Fault (Int × LanState)
  | [], s => .ok (0, s)
  | name :: names, s =>
    match languageGetStrings lang s name with
    | .error f => .error f
    | .ok (ret, s) => if ret < 0 then .ok (-1, s) else loadStrings lang names s

/-- `phone_load_language_strings`, for these names. -/
def phoneLoadLanguageStrings (names : List Name) (doc : Option Language) (s : LanState) :
    Except Fault (Int × LanState) :=
  match doc with
  | none => .ok (-1, s)
  | some lang =>
    if ¬lang.hasType then .ok (-1, s)
    else if ¬lang.hasName then .ok (-1, s)
    else loadStrings lang names s

/-- What the program leaves: what `phone_load_language_strings` has returned, the files, and
`char_file`. -/
structure LanResult where
  ret : Int
  state : LanState
  charFile : List Byte
  deriving DecidableEq, Repr

/-- The size of `collect_text`. -/
def COLLECT_TEXT : UInt64 := 3000

/-- `main`, for these names. -/
def lanStrings (names : List Name) (doc : Option Language) : Except Fault LanResult :=
  match phoneLoadLanguageStrings names doc LanState.init with
  | .error f => .error f
  | .ok (ret, s) =>
    match pjUnicodeToAnsi s.text (UInt64.ofNat s.text.length) COLLECT_TEXT with
    | .error f => .error f
    | .ok r => .ok ⟨ret, s, cStr r.buf⟩

/-- The names of the strings, in the order of the calls. -/
def stringNames : List Name :=
  ["PreDial", "Dialing", "Calling", "Connected", "Ringing", "Holding", "Peer_hold",
    "Trying_to_hold", "Trying_to_resume", "Answering", "Conference", "Conference_With",
    "Transferring", "Transfer_To", "Blind_Transfer", "Call_Ended", "Enter_Number", "To", "From",
    "Enter_Bxfer_Target", "Enter_PickUp_Number", "Enter_Park_Code", "Enter_UnPark_Code",
    "Retrieving", "Select_Pickup_Number", "Retrieving_in_Group", "No_Ringing_In_Group",
    "Enter_Message", "NewCall", "EndCall", "Send", "EndConf", "More", "Exit", "select", "Add",
    "Save", "Cancel", "Back", "Dial", "Xfer", "Bxfer", "Conf", "join", "hold", "lcr", "miss",
    "delete", "edit", "ok", "delChr", "clear", "alpha", "num", "IP", "option", "copy", "paste",
    "modify", "yn", "redial", "Directory", "history", "dnd", "dnd_enable", "cfwd", "forward",
    "cfwd_enable", "pick", "GrPick", "park", "unpark", "SMS", "reply", "play", "new", "view",
    "Switch", "Answer", "Reject", "Resume", "Change", "InComingCall",
    "Ext_1_contacting_stun_error", "Ext_2_contacting_stun_error", "Ext_3_contacting_stun_error",
    "Ext_4_contacting_stun_error", "Initializing_network", "Checking_DNS", "LAN_Disconnected",
    "WAN_Disconnected", "IP_Conflict", "New_Missed_Call", "New_Missed_Calls", "Do_Not_Disturb",
    "Calls_Forwarded", "PPPOE_dialing", "Menu", "Enable", "Disable", "Empty", "Activation",
    "List_is_Empty", "Preference", "Headset", "Speaker", "Yes", "No", "No_service",
    "Factory_Reset", "Choice_Symbol", "New", "Old", "Default", "Language_setting", "New_Entry",
    "Number", "Name", "Ring", "Phone_book_is_full_Please_remove_a_record_info", "Call_History",
    "Dialed_Calls", "Missed_Calls", "Answered_Calls", "NAT", "WAN", "LAN", "dhcp", "Static",
    "PPPoe", "Host_Name", "Domain", "Network", "Connect_Type", "Current_IP", "Current_Netmask",
    "Current_Gateway", "Current_primary_dns", "Current_secondary_dns", "Static_IP_Address",
    "Static_Subnet_Mask", "Static_Default_Route", "Static_DNS_1", "Static_DNS_2", "Wan_ip_is_null",
    "Wan_Subnet_Mask_is_null", "Wan_default_route_is_null", "Wan_IP_addr_error",
    "Wan_Subnet_Mask_error", "Wan_Default_Route_error", "Wan_Dns1_error", "Wan_Dns2_error",
    "Setting_error_pls_check", "Multicast_Address", "Bridge_Mode", "VLAN", "Voice_VLAN_ID",
    "Data_VLAN_ID", "Voice_VLAN_ID_error", "Data_VLAN_ID_error", "Ext", "Sip_server", "Sip_port",
    "Sip_port_error", "Sipaccount", "AuthID", "Display_Name", "Proxy", "UserID",
    "PPPOE_Login_Name", "PPPOE_Login_Password", "PPPOE_Service_Name", "Time_Date", "Date", "Time",
    "Time_zone", "Time_Mode", "NTP", "NTP_Settings", "Enable_NTP_Server", "NTP_Server", "Manual",
    "Manual_Settings", "Time_Format", "Time_24hr", "Time_12hr", "Date_Format", "day_month",
    "month_day", "Date_y_m_d", "Time_h_m_s", "Date_format_error", "Time_format_error",
    "Conceal_Caller_ID", "Block_Anonymous_Call", "Call_Waiting", "Dial_Assistance",
    "Preferred_Audio_Device", "Secure_Call", "Auto_Answer", "Send_Audio_To_Speaker",
    "Call_Forward", "CFWD_All_Number", "CFWD_Busy_Number", "CFWD_No_Ans_Number",
    "CFWD_No_Ans_Delay", "Enable_Web_Server", "Set_Password", "New_Password", "Confirm_Password",
    "Password_Disaccord", "Lcd_Contrast", "Lcd_Backlight", "Status", "Phone", "Registered",
    "Not_registered", "Product_Info", "Product_Name", "Serial_Number", "Software_Version",
    "Hardware_Version", "MAC_Address", "Protocol", "Last_Reg_at", "Next_Reg_at", "Tone",
    "Ring_Tone", "User_Define_1", "User_Define_2", "No_Ring", "Ring_Picker", "Voice_Mail",
    "Voice_Mail_list", "Voice_Mail_Number", "Password", "Password_Error", "Volume",
    "Handset_Volume", "Speaker_Volume", "Headset_Volume", "Ringer_Volume", "rebooting",
    "restarting", "Reboot", "Confirm_System_Reboot", "Confirm_System_Restart",
    "Reset_succeed_rebooting", "All_parameters_will_be_reset_to_factory_default_values_info",
    "Load_channel_failed", "Downloading_firmware", "Erasing", "Upgrading", "About_2_minutes",
    "About_1_5_minutes", "About_1_minutes", "About_30_seconds", "Erase_Finish_Upgrade",
    "Upgrade_succeed", "Downloading_file", "Download_fw_ok", "Failed_once", "Failed_twice",
    "Failed_last_time", "Upgrade_failed", "File_size_not_correct", "Wait_update",
    "VPN_connect_failed", "Contacts", "None", "Line", "BLF", "SpeedDial", "DTMF", "Mode",
    "LineKey", "ProgramKey", "Module", "Key", "Account", "None_explain", "Line_explain",
    "BLF_explain", "SpeedDial_explain", "DTMF_explain", "Lan_Activation", "PC_Activation",
    "Lan_Identifier", "PC_Identifier", "Lan_Priority", "PC_Priority", "Lan_Identifier_error",
    "PC_Identifier_error", "Lan_Priority_error", "PC_Priority_error", "WIFI", "Ethernet",
    "Connect_Mode", "SSID", "WIFI_Status", "WIFI_Connected", "Off_Line", "Failed", "IP_setting",
    "WIFI_setting", "AP_setting", "Hotspot_list", "Manual_add", "Link_WIFI", "Link", "Unlink",
    "Unsave", "Info", "Encrypt", "Signal", "Channel", "Ap_switch", "DHCP_setting", "On", "Off",
    "Ap_ssid", "Ap_password", "WiFi_prompt_msg", "Authentication", "Connection_successful",
    "Connection_fail", "WLAN", "Security", "Ap_status", "Connect", "Signal_strength", "Excellent",
    "Good", "Fair", "Poor", "IP_address", "Saved", "Not_range", "Search", "LDAP",
    "Remote_phone_book", "local_directory", "IP_Call", "IP_Calling", "Keypad_Lock",
    "keypad_lock_enable", "keypad_lock_type", "keypad_lock_timeout", "Phone_Unlock_Pin",
    "Menu_key", "Function_key", "All_key", "Answer_call_only", "emergency_call_only",
    "Reset_to_Factory_Warning", "Reset_Option", "Full_Reset", "Config_Reset", "UserData_Reset",
    "reset_to_factory_by_the_mode_of_Full_Reset", "reset_to_factory_by_the_mode_of_Config_Reset",
    "reset_to_factory_by_the_mode_of_UserData_Reset"].map ascii

end LearnGit.WideChar
