import LatticeSeries.Utf8

/-!
# Why a request fails

One type of causes for the whole library, and one function that words them. A
cause carries the quantities it reports and nothing else.
-/
namespace LatticeSeries

/-- A part of the file that has a size known in advance. -/
inductive Section where
  | mainHeader
  | headers
  | timeStepBlock
deriving DecidableEq, Repr

inductive LimitKey where
  | siteCount
  | fieldCount
  | fieldHeaderLength
  | fieldLength
deriving DecidableEq, Repr

/-- What is wrong with the main header, the field header or what they imply. -/
inductive HeaderFault where
  | applicationMagic (found : UInt32)
  | extractionMagic (found : UInt32)
  | fieldHeaderCut (declared available : Nat)
  | fieldHeaderExcess (declared position : Nat)
  | outOfBytes (item : String) (position needed remaining : Nat)
  | nonZeroPadding (item : String) (position : Nat)
  | notUtf8 (item : String) (position : Nat) (fault : Utf8.Fault)
  | duplicateName (name : String)
  | noElements (name : String)
  | recordLengthOverflow (siteCount : UInt64)
  | recordLengthBelowMarker (recordLength : Nat)
deriving DecidableEq, Repr

inductive SettingsFault where
  | zeroLimit (key : LimitKey)
  | emptyDelimiter
  | missingFile
  | notText
  | notADocument
  | unsuitableValue (key : String)
deriving DecidableEq, Repr

inductive Error where
  | missingFile
  | truncated (part : Section) (expected actual : Nat)
  | corruptHeader (fault : HeaderFault)
  | unsupportedVersion (version : UInt32)
  | corruptBody (bodyLength recordLength residual : Nat)
  | unorderedTimeSteps (index : Nat) (previous current : UInt64)
  | indexOutOfRange (index count : Nat)
  | timeStepNotFound (timeStep : UInt64)
  | limitExceeded (quantity : String) (value limit : Nat)
  | settings (fault : SettingsFault)
deriving DecidableEq, Repr

/-- The word that opens every file: the bytes of `hlb!`. -/
def Magic.application : UInt32 := 0x686c6221

/-- The word that marks an extraction file. -/
def Magic.extraction : UInt32 := 0x78747204

/-- Eight hexadecimal digits after `0x`. -/
def hexadecimal (n : UInt32) : String :=
  let digits := Nat.toDigits 16 n.toNat
  "0x" ++ String.ofList (List.replicate (8 - digits.length) '0' ++ digits)

def noSuchFile : String := "No such file or directory (os error 2)"

def Section.text : Section → String
  | .mainHeader => "main header"
  | .headers => "headers"
  | .timeStepBlock => "timestep block"

def LimitKey.text : LimitKey → String
  | .siteCount => "max_site_count"
  | .fieldCount => "max_field_count"
  | .fieldHeaderLength => "max_field_header_length"
  | .fieldLength => "max_field_length"

def HeaderFault.message : HeaderFault → String
  | .applicationMagic found =>
    s!"Incorrect application magic: expected {hexadecimal Magic.application}, " ++
      s!"got {hexadecimal found}"
  | .extractionMagic found =>
    s!"Incorrect extraction magic: expected {hexadecimal Magic.extraction}, " ++
      s!"got {hexadecimal found}"
  | .fieldHeaderCut declared available =>
    s!"Field header declares {declared} bytes, only {available} available"
  | .fieldHeaderExcess declared position =>
    s!"Field header declares {declared} bytes but fields end at byte {position}"
  | .outOfBytes item position needed remaining =>
    s!"{item} at byte {position} needs {needed} bytes, only {remaining} remain"
  | .nonZeroPadding item position => s!"{item} at byte {position} has non-zero padding"
  | .notUtf8 item position fault => s!"{item} at byte {position} is not UTF-8: {fault.message}"
  | .duplicateName name => s!"Duplicate field name '{name}'"
  | .noElements name => s!"Field '{name}' declares zero elements"
  | .recordLengthOverflow siteCount => s!"Record length overflows for {siteCount} sites"
  | .recordLengthBelowMarker recordLength =>
    s!"Record length {recordLength} is shorter than the 8-byte timestep marker"

def SettingsFault.message : SettingsFault → String
  | .zeroLimit key => s!"limits.{key.text} must be > 0"
  | .emptyDelimiter => "output.delimiter cannot be empty"
  | .missingFile => s!"Failed to read config file: {noSuchFile}"
  | .notText => "Failed to read config file: stream did not contain valid UTF-8"
  | .notADocument => "Failed to parse config: not a TOML document"
  | .unsuitableValue key => s!"Failed to parse config: unsuitable value for {key}"

def Error.message : Error → String
  | .missingFile => s!"I/O error: {noSuchFile}"
  | .truncated part expected actual =>
    s!"Truncated {part.text}: expected {expected} bytes, got {actual}"
  | .corruptHeader fault => s!"Corrupt header: {fault.message}"
  | .unsupportedVersion version => s!"Unsupported extraction format version: {version}"
  | .corruptBody bodyLength recordLength residual =>
    s!"Corrupt body: {bodyLength} bytes is not a multiple of record length {recordLength} " ++
      s!"(residual {residual})"
  | .unorderedTimeSteps index previous current =>
    s!"Timesteps out of order at record {index}: {current} follows {previous}"
  | .indexOutOfRange index count =>
    s!"Timestep index {index} out of range (file holds {count} timesteps)"
  | .timeStepNotFound timeStep => s!"Timestep {timeStep} not present in extraction file"
  | .limitExceeded quantity value limit => s!"{quantity} of {value} exceeds limit of {limit}"
  | .settings fault => s!"Configuration error: {fault.message}"

end LatticeSeries
