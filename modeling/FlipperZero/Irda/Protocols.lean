import FlipperZero.Irda.CommonDecoder

/-! # The NEC and Samsung32 protocols

The two protocol specifications with their checks of a received frame and of a
repeat, and the waveforms that their encoders send.
-/

namespace FlipperZero.Irda

open FlipperZero.Lib

def irdaNecPreambuleMark : ℕ := 9000
def irdaNecPreambuleSpace : ℕ := 4500
def irdaNecBit1Mark : ℕ := 560
def irdaNecBit1Space : ℕ := 1600
def irdaNecBit0Mark : ℕ := 560
def irdaNecBit0Space : ℕ := 560
def irdaNecRepeatPauseMin : ℕ := 30000
def irdaNecRepeatPause : ℕ := 40000
def irdaNecRepeatPauseMax : ℕ := 150000
def irdaNecRepeatMark : ℕ := 9000
def irdaNecRepeatSpace : ℕ := 2250
def irdaNecPreambleTolerance : ℚ := binary32 (binary64 (7 / 100))
def irdaNecBitTolerance : ℕ := 120

def irdaSamsungPreambuleMark : ℕ := 4500
def irdaSamsungPreambuleSpace : ℕ := 4500
def irdaSamsungBit1Mark : ℕ := 550
def irdaSamsungBit1Space : ℕ := 1650
def irdaSamsungBit0Mark : ℕ := 550
def irdaSamsungBit0Space : ℕ := 550
def irdaSamsungRepeatPauseMin : ℕ := 30000
def irdaSamsungRepeatPause : ℕ := 47000
def irdaSamsungRepeatPauseMax : ℕ := 150000
def irdaSamsungRepeatMark : ℕ := 4500
def irdaSamsungRepeatSpace : ℕ := 4500
def irdaSamsungPreambleTolerance : ℚ := binary32 (binary64 (7 / 100))
def irdaSamsungBitTolerance : ℕ := 120

def necTimings : IrdaCommonDecoderTimings where
  preambleMark := irdaNecPreambuleMark
  preambleSpace := irdaNecPreambuleSpace
  bit1Mark := irdaNecBit1Mark
  bit1Space := irdaNecBit1Space
  bit0Mark := irdaNecBit0Mark
  bit0Space := irdaNecBit0Space
  preambleTolerance := irdaNecPreambleTolerance
  bitTolerance := irdaNecBitTolerance

def samsung32Timings : IrdaCommonDecoderTimings where
  preambleMark := irdaSamsungPreambuleMark
  preambleSpace := irdaSamsungPreambuleSpace
  bit1Mark := irdaSamsungBit1Mark
  bit1Space := irdaSamsungBit1Space
  bit0Mark := irdaSamsungBit0Mark
  bit0Space := irdaSamsungBit0Space
  preambleTolerance := irdaSamsungPreambleTolerance
  bitTolerance := irdaSamsungBitTolerance

def interpretNec (d : IrdaCommonDecoder) : Bool × IrdaCommonDecoder :=
  let address : BitVec 16 := (d.data 0).zeroExtend 16 ||| (d.data 1).zeroExtend 16 <<< 8
  let command := d.data 2
  let commandInverse := d.data 3
  if command = ~~~commandInverse then
    (true, { d with
      message := { d.message with
        command := command.zeroExtend 32, address := address.zeroExtend 32, «repeat» := false } })
  else (false, d)

/-- What `decode_repeat_nec` asks of the pause, mark, space and stop mark of a repeat. -/
def NecRepeat (tm : IrdaCommonDecoderTimings) (pause mark space stop : ℕ) : Prop :=
  irdaNecRepeatPauseMin < pause ∧ pause < irdaNecRepeatPauseMax ∧
    matchPreambleTiming mark irdaNecRepeatMark tm.preambleTolerance ∧
    matchPreambleTiming space irdaNecRepeatSpace tm.preambleTolerance ∧
    matchBitTiming stop tm.bit1Mark tm.bitTolerance

instance (tm : IrdaCommonDecoderTimings) (pause mark space stop : ℕ) :
    Decidable (NecRepeat tm pause mark space stop) :=
  inferInstanceAs (Decidable (_ ∧ _))

def decodeRepeatNec (tm : IrdaCommonDecoderTimings) (d : IrdaCommonDecoder) :
    DecodeStatus × IrdaCommonDecoder :=
  match d.timings with
  | pause :: mark :: space :: stop :: _ =>
    if NecRepeat tm pause mark space stop then (.ready, { d with timings := [] })
    else (.error, d)
  | _ => (.ok, d)

def protocolNec : IrdaCommonProtocolSpec where
  timings := necTimings
  databitLen := 32
  decode := irdaCommonDecodePdwm
  interpret := interpretNec
  decodeRepeat := some decodeRepeatNec

def interpretSamsung32 (d : IrdaCommonDecoder) : Bool × IrdaCommonDecoder :=
  let address1 := d.data 0
  let address2 := d.data 1
  let command := d.data 2
  let commandInverse := d.data 3
  if address1 = address2 ∧ command = ~~~commandInverse then
    (true, { d with
      message := { d.message with
        command := command.zeroExtend 32, address := address1.zeroExtend 32, «repeat» := false } })
  else (false, d)

/-- What `decode_repeat_samsung32` asks of the six timings of a repeat. -/
def Samsung32Repeat (tm : IrdaCommonDecoderTimings)
    (pause mark space bitMark bitSpace stop : ℕ) : Prop :=
  irdaSamsungRepeatPauseMin < pause ∧ pause < irdaSamsungRepeatPauseMax ∧
    matchPreambleTiming mark irdaSamsungRepeatMark tm.preambleTolerance ∧
    matchPreambleTiming space irdaSamsungRepeatSpace tm.preambleTolerance ∧
    matchBitTiming bitMark tm.bit1Mark tm.bitTolerance ∧
    matchBitTiming bitSpace tm.bit1Space tm.bitTolerance ∧
    matchBitTiming stop tm.bit1Mark tm.bitTolerance

instance (tm : IrdaCommonDecoderTimings) (pause mark space bitMark bitSpace stop : ℕ) :
    Decidable (Samsung32Repeat tm pause mark space bitMark bitSpace stop) :=
  inferInstanceAs (Decidable (_ ∧ _))

def decodeRepeatSamsung32 (tm : IrdaCommonDecoderTimings) (d : IrdaCommonDecoder) :
    DecodeStatus × IrdaCommonDecoder :=
  match d.timings with
  | pause :: mark :: space :: bitMark :: bitSpace :: stop :: _ =>
    if Samsung32Repeat tm pause mark space bitMark bitSpace stop then
      (.ready, { d with timings := [] })
    else (.error, d)
  | _ => (.ok, d)

def protocolSamsung32 : IrdaCommonProtocolSpec where
  timings := samsung32Timings
  databitLen := 32
  decode := irdaCommonDecodePdwm
  interpret := interpretSamsung32
  decodeRepeat := some decodeRepeatSamsung32

structure IrdaEncoderTimings where
  bit1Mark : ℕ
  bit1Space : ℕ
  bit0Mark : ℕ
  bit0Space : ℕ

def necEncoderTimings : IrdaEncoderTimings where
  bit1Mark := irdaNecBit1Mark
  bit1Space := irdaNecBit1Space
  bit0Mark := irdaNecBit0Mark
  bit0Space := irdaNecBit0Space

def samsung32EncoderTimings : IrdaEncoderTimings where
  bit1Mark := irdaSamsungBit1Mark
  bit1Space := irdaSamsungBit1Space
  bit0Mark := irdaSamsungBit0Mark
  bit0Space := irdaSamsungBit0Space

inductive Pulse where
  | mark (duration : ℕ)
  | space (duration : ℕ)
  deriving DecidableEq, Repr

def irdaEncodeBit (tm : IrdaEncoderTimings) (bit : Bool) : List Pulse :=
  if bit then [.mark tm.bit1Mark, .space tm.bit1Space]
  else [.mark tm.bit0Mark, .space tm.bit0Space]

def irdaEncodeByte (tm : IrdaEncoderTimings) (data : BitVec 8) : List Pulse :=
  (List.range 8).flatMap fun i => irdaEncodeBit tm (data.getLsbD i)

def irdaEncodeNecPreamble : List Pulse :=
  [.mark irdaNecPreambuleMark, .space irdaNecPreambuleSpace]

def irdaEncodeNecRepeat : List Pulse :=
  [Pulse.space irdaNecRepeatPause, .mark irdaNecRepeatMark, .space irdaNecRepeatSpace] ++
    irdaEncodeBit necEncoderTimings true

def irdaEncoderNecEncode (addr cmd : BitVec 32) (isRepeat : Bool) : List Pulse :=
  let address := addr.setWidth 8
  let command := cmd.setWidth 8
  if !isRepeat then
    irdaEncodeNecPreamble ++ irdaEncodeByte necEncoderTimings address ++
      irdaEncodeByte necEncoderTimings (~~~address) ++ irdaEncodeByte necEncoderTimings command ++
      irdaEncodeByte necEncoderTimings (~~~command) ++ irdaEncodeBit necEncoderTimings true
  else irdaEncodeNecRepeat

def irdaEncodeSamsung32Preamble : List Pulse :=
  [.mark irdaSamsungPreambuleMark, .space irdaSamsungPreambuleSpace]

def irdaEncodeSamsung32Repeat : List Pulse :=
  [Pulse.space irdaSamsungRepeatPause, .mark irdaSamsungRepeatMark, .space irdaSamsungRepeatSpace] ++
    irdaEncodeBit samsung32EncoderTimings true ++ irdaEncodeBit samsung32EncoderTimings true

def irdaEncoderSamsung32Encode (addr cmd : BitVec 32) (isRepeat : Bool) : List Pulse :=
  let address := addr.setWidth 8
  let command := cmd.setWidth 8
  if !isRepeat then
    irdaEncodeSamsung32Preamble ++ irdaEncodeByte samsung32EncoderTimings address ++
      irdaEncodeByte samsung32EncoderTimings address ++ irdaEncodeByte samsung32EncoderTimings command ++
      irdaEncodeByte samsung32EncoderTimings (~~~command) ++ irdaEncodeBit samsung32EncoderTimings true
  else irdaEncodeSamsung32Repeat

def IrdaProtocol.encode : IrdaProtocol → BitVec 32 → BitVec 32 → Bool → List Pulse
  | .samsung32 => irdaEncoderSamsung32Encode
  | .nec => irdaEncoderNecEncode

/-- The waveform of `irda_send`: the message and `times - 1` repeats. -/
def irdaSend (message : IrdaMessage) (times : ℕ) : List Pulse :=
  (List.range times).flatMap fun i =>
    message.protocol.encode message.address message.command (i != 0)

def Pulse.duration : Pulse → ℕ
  | .mark d => d
  | .space d => d

/-- Put a pulse in front; it is one with a pulse of the same level. -/
def joinPulse : Pulse → List Pulse → List Pulse
  | .mark d, .mark e :: ps => .mark (d + e) :: ps
  | .space d, .space e :: ps => .space (d + e) :: ps
  | p, ps => p :: ps

/-- The timings that a receiver measures of a sent waveform. -/
def timingsOf (ps : List Pulse) : List ℕ :=
  (ps.foldr joinPulse []).map Pulse.duration

end FlipperZero.Irda
