import Mathlib

/-!
# `LearnGit.Uart.Link.Packet`: frames of the serial link

The packet layer of `third_party/uart_protocol/link/link_proto.c`: the packet record, the
CRC, `pro_pack_data` and `pro_unpack_pkg`, and the byte stuffing of `feed_data_inpacket`.

A frame on the line is `0xAA`, one byte of device id, command and packet number, the
length byte, two CRC bytes, and the stuffed payload. The CRC is taken over the stuffed
payload. Its own value is stuffed into the two CRC bytes.

`data` holds the bytes `data[0 .. length)` of the C record, so `length` is the length of
the list. The fields `header` and `crc8[1]` of the record are left out: no function reads
them. The bit fields `dev_id:3`, `cmd:3` and `num:2` are `Fin 8`, `ProtocolCmd` (its eight
values fill three bits) and `Fin 4`.
-/

set_option autoImplicit false

namespace LearnGit.Uart.Link

abbrev Byte := UInt8

def PRO_MAX_BUFFER_SIZE : Nat := 255
def PRO_MAX_DATADOMAIN_SIZE : Nat := 240
def PRO_IDX_PKT_HEADER_LEN : Nat := 5
def TTY_DATA_HEADER : Byte := 0xAA
def TTY_ANSWER_DATA : Byte := 0xEE
def TTY_ANSWER_DATA_LEN : Nat := 5
def MAX_PACKET_NUM : Nat := 4
def MIN_PACKET_NUM : Nat := 1

/-- `protocol_cmd_t`. -/
inductive ProtocolCmd where
  | ack
  | nak
  | can
  | sof
  | tx
  | eof
  | timeout
  | invalid
  deriving DecidableEq, Repr

namespace ProtocolCmd

/-- The enumeration value. -/
def toByte : ProtocolCmd → Byte
  | ack => 0
  | nak => 1
  | can => 2
  | sof => 3
  | tx => 4
  | eof => 5
  | timeout => 6
  | invalid => 7

/-- The command a 3-bit field holds. -/
def ofByte (b : Byte) : ProtocolCmd :=
  match b &&& 0x07 with
  | 0 => ack
  | 1 => nak
  | 2 => can
  | 3 => sof
  | 4 => tx
  | 5 => eof
  | 6 => timeout
  | _ => invalid

end ProtocolCmd

-- The fields of three bits and of two have numerals.
instance neZero_eight : NeZero 8 := ⟨by decide⟩
instance neZero_four : NeZero 4 := ⟨by decide⟩

/-- `pro_packet_info_t`. -/
structure ProPacketInfo where
  devId : Fin 8
  cmd : ProtocolCmd
  num : Fin 4
  crc8 : Byte := 0
  data : List Byte
  deriving DecidableEq, Repr

/-! ### The CRC -/

/-- The eight rounds of `calcrc_1byte`, with the accumulator and the shifted byte. -/
def calcrc1byteLoop : Nat → Byte → Byte → Byte
  | 0, crc, _ => crc
  | i + 1, crc, abyte =>
    let crc := if (crc ^^^ abyte) &&& 0x01 ≠ 0 then ((crc ^^^ 0x18) >>> 1) ||| 0x80 else crc >>> 1
    calcrc1byteLoop i crc (abyte >>> 1)

/-- `calcrc_1byte`. -/
def calcrc1byte (abyte : Byte) : Byte := calcrc1byteLoop 8 0 abyte

/-- `calcrc_bytes`, over the bytes it is given. -/
def calcrcBytes (p : List Byte) : Byte := p.foldl (fun crc b => calcrc1byte (crc ^^^ b)) 0

/-- `pro_gen_crc8`. -/
def proGenCrc8 (data : List Byte) : Byte := calcrcBytes data

/-! ### Packing and unpacking -/

/-- The byte at `PRO_IDX_PKT_ID_CMD_NUM`. -/
def idCmdNum (info : ProPacketInfo) : Byte :=
  let ch : Byte := (UInt8.ofNat info.devId.val <<< 5) &&& (0xE0 : Byte)
  let ch : Byte := ch ||| ((info.cmd.toByte <<< 2) &&& (0x1C : Byte))
  ch ||| (UInt8.ofNat info.num.val &&& 0x03)

/-- The two bytes that carry the CRC. -/
def crcField (crc8 : Byte) : Byte × Byte :=
  if crc8 = 0xFF then (0xFF, 0xFF)
  else if crc8 = 0x00 then (0xFF, 0xF0)
  else if 0xAA = crc8 then (0xFF, 0xFA)
  else (crc8, crc8)

/-- `pro_pack_data`: the bytes the caller writes to the line, `total_len` of them.
`total_len` is an `unsigned char`. -/
def proPackData (info : ProPacketInfo) : List Byte :=
  let len := info.data.length
  let crc := crcField (proGenCrc8 info.data)
  ([TTY_DATA_HEADER, idCmdNum info, UInt8.ofNat len, crc.1, crc.2] ++ info.data).take
    ((len + PRO_IDX_PKT_HEADER_LEN) % 256)

/-- The escape table shared by the payload and the CRC: the byte that follows `0xFF`. -/
def unescape (b : Byte) : Byte :=
  if b = 0xFA then 0xAA
  else if b = 0xFF then 0xFF
  else if b = 0xF0 then 0x00
  else b

/-- The unstuffing loop of `pro_unpack_pkg`. The index `len` is an `unsigned char`, so it
wraps at 256. A pass over `dataLen ≤ 255` bytes takes at most 255 rounds. When the index
wraps, the loop starts over on the same bytes and never ends: `none`. -/
def unpackLoop (pdat : Nat → Byte) (dataLen : Nat) : Nat → Nat → List Byte → Option (List Byte)
  | 0, _, _ => none
  | rounds + 1, len, data =>
    if len < dataLen then
      if pdat len = 0xFF then
        -- The byte behind an escape is read even where `dataLen` ends.
        let len := (len + 1) % 256
        unpackLoop pdat dataLen rounds ((len + 1) % 256) (data ++ [unescape (pdat len)])
      else
        unpackLoop pdat dataLen rounds ((len + 1) % 256) (data ++ [pdat len])
    else some data

/-- The offsets that `unpackLoop` reads from `len` on, in their order. -/
def unpackOffsets (pdat : Nat → Byte) (dataLen : Nat) : Nat → Nat → List Nat
  | 0, _ => []
  | rounds + 1, len =>
    if len < dataLen then
      if pdat len = 0xFF then
        let next := (len + 1) % 256
        len :: next :: unpackOffsets pdat dataLen rounds ((next + 1) % 256)
      else len :: unpackOffsets pdat dataLen rounds ((len + 1) % 256)
    else []

/-- `pro_unpack_pkg`. Bytes past the end of `pbuffer` read as zero. -/
def proUnpackPkg (pbuffer : List Byte) (dataLen : Nat) : Option ProPacketInfo := do
  let ch := pbuffer.getD 1 0
  let data ← unpackLoop (fun i => pbuffer.getD (PRO_IDX_PKT_HEADER_LEN + i) 0) dataLen 256 0 []
  let pcrc := pbuffer.getD 3 0
  return {
    devId := Fin.ofNat 8 (((ch >>> 5) &&& 0x07).toNat)
    cmd := ProtocolCmd.ofByte (ch >>> 2)
    num := Fin.ofNat 4 ((ch &&& 0x03).toNat)
    crc8 := if pcrc = 0xFF then unescape (pbuffer.getD 4 0) else pcrc
    data := data }

/-- The offsets of the payload that `pro_unpack_pkg` reads. -/
def unpackReads (pbuffer : List Byte) (dataLen : Nat) : List Nat :=
  unpackOffsets (fun i => pbuffer.getD (PRO_IDX_PKT_HEADER_LEN + i) 0) dataLen 256 0

/-! ### Stuffing -/

/-- One payload byte as `feed_data_inpacket` writes it. -/
def stuffByte (b : Byte) : List Byte :=
  if b = 0x00 then [0xFF, 0xF0]
  else if b = 0xFF then [0xFF, 0xFF]
  else if b = 0xAA then [0xFF, 0xFA]
  else [b]

/-- The loop of `feed_data_inpacket`. It returns `i` and the bytes written. -/
def feedLoop (srcLen : Int) : List Byte → Nat → List Byte → Nat × List Byte
  | [], i, out => (i, out)
  | b :: rest, i, out =>
    -- The next byte may take two places, so the loop stops when only one is left.
    if out.length < PRO_MAX_DATADOMAIN_SIZE - 1 ∧ (i : Int) < srcLen then
      feedLoop srcLen rest (i + 1) (out ++ stuffByte b)
    else (i, out)

/-- `feed_data_inpacket`: the packet with its payload, and the number of bytes of `pdata`
that went into it. The caller's `*data_len` goes down by that number. -/
def feedDataInpacket (pkt : ProPacketInfo) (dataLen : Int) (pdata : List Byte) :
    ProPacketInfo × Nat :=
  let r := feedLoop dataLen pdata 0 []
  ({ pkt with data := r.2 }, r.1)

end LearnGit.Uart.Link
