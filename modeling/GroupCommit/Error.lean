import GroupCommit.Numeral.Hexadecimal

/-!
# Errors

What a call on the log, on a codec or on a Writer can be refused with. Every refusal is a cause; its
wording is in one `message` function per type. A text given from outside has a constructor of its
own (`described`, `refused`).
-/

namespace GroupCommit

/-! ### Writers -/

/-- Why a Writer did not write. -/
inductive IoError where
  /-- The medium refused, in its own words. -/
  | refused (text : String)
  /-- The memory Writer has accepted as many calls as it was told to. -/
  | injected (length address : Nat)
  /-- A block device is written from the start of a block only. -/
  | misaligned (address blockSize : Nat)
  /-- No file offset reaches this far. -/
  | offsetTooLarge
  /-- The directory of the file does not exist. -/
  | missingDirectory
  /-- The path names a directory. -/
  | pathIsDirectory
  /-- The path goes on below something that is not a directory. -/
  | notDirectory
  /-- No file name is that long. -/
  | nameTooLong
  /-- The device has no room. -/
  | deviceFull
  /-- The device keeps nothing that could be made durable. -/
  | notDurable
  /-- The device has no offsets. -/
  | notSeekable
  deriving DecidableEq, Repr

/-- The classes into which Writer errors fall. -/
inductive IoErrorKind where
  | other
  | invalidInput
  | notFound
  | isADirectory
  | notADirectory
  | invalidFilename
  | storageFull
  | notSeekable
  deriving DecidableEq, Repr

namespace IoError

/-- The class of an error. -/
def kind : IoError → IoErrorKind
  | refused _ => .other
  | injected _ _ => .other
  | misaligned _ _ => .invalidInput
  | offsetTooLarge => .invalidInput
  | missingDirectory => .notFound
  | pathIsDirectory => .isADirectory
  | notDirectory => .notADirectory
  | nameTooLong => .invalidFilename
  | deviceFull => .storageFull
  | notDurable => .invalidInput
  | notSeekable => .notSeekable

/-- The wording of an error; those of the operating system carry its number. -/
def message : IoError → String
  | refused text => text
  | injected length address => s!"injected failure writing {length} bytes at {address}"
  | misaligned address blockSize =>
    s!"address {address} is not aligned to {blockSize}-byte blocks"
  | offsetTooLarge => "Invalid argument (os error 22)"
  | missingDirectory => "No such file or directory (os error 2)"
  | pathIsDirectory => "Is a directory (os error 21)"
  | notDirectory => "Not a directory (os error 20)"
  | nameTooLong => "File name too long (os error 36)"
  | deviceFull => "No space left on device (os error 28)"
  | notDurable => "Invalid argument (os error 22)"
  | notSeekable => "Illegal seek (os error 29)"

end IoError

/-! ### Poisoning -/

/-- Why a slot or a log was poisoned. -/
inductive PoisonReason where
  /-- Writing a slot failed. -/
  | slotWrite (length address : Nat) (error : IoError)
  /-- Writing bytes that pass by the slots failed. -/
  | directWrite (length address : Nat) (error : IoError)
  /-- What a commit is told that finds the log poisoned. -/
  | earlierFailure
  /-- A reason in the words of whoever poisoned it. -/
  | described (text : String)
  deriving DecidableEq, Repr

/-- The wording of a reason. -/
def PoisonReason.message : PoisonReason → String
  | slotWrite length address error =>
    s!"write of {length} bytes at {address} failed: {error.message}"
  | directWrite length address error =>
    s!"direct write of {length} bytes at {address} failed: {error.message}"
  | earlierFailure => "log poisoned by an earlier write failure"
  | described text => text

/-! ### Codecs and configuration -/

/-- Why bytes hold no record. -/
inductive RecordDefect where
  /-- Fewer bytes than a record with this payload length takes. -/
  | truncated (expected actual : Nat)
  /-- Fewer bytes than a metadata header takes. -/
  | headerTruncated (expected actual : Nat)
  /-- Fewer bytes than the addresses announced in a metadata header take. -/
  | addressesTruncated (count expected actual : Nat)
  | described (text : String)
  deriving DecidableEq, Repr

/-- The wording of a defect. -/
def RecordDefect.message : RecordDefect → String
  | truncated expected actual =>
    s!"Truncated record: expected {expected} bytes, got {actual}"
  | headerTruncated expected actual =>
    s!"Incomplete metadata header: expected {expected} bytes, got {actual}"
  | addressesTruncated count expected actual =>
    s!"Incomplete metadata: {count} addresses need {expected} bytes, got {actual}"
  | described text => text

/-- Why a complete record is not believed. -/
inductive Corruption where
  /-- The checksum in the record is not that of its payload. -/
  | checksumMismatch (stored computed : UInt32)
  | described (text : String)
  deriving DecidableEq, Repr

/-- The wording of a corruption. -/
def Corruption.message : Corruption → String
  | checksumMismatch stored computed =>
    "CRC mismatch: stored " ++ Numeral.toHex stored.toNat 8
      ++ ", computed " ++ Numeral.toHex computed.toNat 8
  | described text => text

/-- Why a configuration is not accepted. -/
inductive ConfigError where
  | slotCapacity (least actual : Nat)
  | ringSize (actual : Nat)
  | waitTimeout
  | blockBits (least most actual : Nat)
  | described (text : String)
  deriving DecidableEq, Repr

/-- The wording of a configuration error. -/
def ConfigError.message : ConfigError → String
  | slotCapacity least actual =>
    s!"slot_capacity must be a power of two >= {least}, got {actual}"
  | ringSize actual => s!"ring_size must be a power of two, got {actual}"
  | waitTimeout => "wait_timeout_ms must be > 0"
  | blockBits least most actual => s!"block_bits must be in {least}..={most}, got {actual}"
  | described text => text

/-! ### The log -/

/-- What a call on the log or one of its codecs is refused with. -/
inductive LogError where
  | io (error : IoError)
  | corruption (cause : Corruption)
  | invalidRecord (cause : RecordDefect)
  | config (cause : ConfigError)
  | poisoned (reason : PoisonReason)
  deriving DecidableEq, Repr

namespace LogError

/-- The full wording of an error. -/
def message : LogError → String
  | io error => "IO error: " ++ error.message
  | corruption cause => "Record corruption detected: " ++ cause.message
  | invalidRecord cause => "Invalid record: " ++ cause.message
  | config cause => "Configuration error: " ++ cause.message
  | poisoned reason => "Log poisoned: " ++ reason.message

/-- Whether the call was refused for an earlier failure and not for its own doing. -/
def isPoisoned : LogError → Bool
  | poisoned _ => true
  | _ => false

end LogError

end GroupCommit
