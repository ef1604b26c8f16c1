/-!
# POSIX error codes

The part of `Extensions.swift` that turns libnfs statuses into `POSIXError` codes, with the Darwin
numbers of the codes the library names.
-/

namespace NFSKit

/-- A `POSIXErrorCode`, by its raw value. -/
structure POSIXErrorCode where
  rawValue : Int
deriving DecidableEq, Repr

namespace POSIXErrorCode

def ENOENT : POSIXErrorCode := ⟨2⟩
def EIO : POSIXErrorCode := ⟨5⟩
def EBADF : POSIXErrorCode := ⟨9⟩
def ENOMEM : POSIXErrorCode := ⟨12⟩
def EBUSY : POSIXErrorCode := ⟨16⟩
def ENOTDIR : POSIXErrorCode := ⟨20⟩
def ENOBUFS : POSIXErrorCode := ⟨55⟩
def EISCONN : POSIXErrorCode := ⟨56⟩
def ENOTCONN : POSIXErrorCode := ⟨57⟩
def ETIMEDOUT : POSIXErrorCode := ⟨60⟩
def ENOTEMPTY : POSIXErrorCode := ⟨66⟩
def ECANCELED : POSIXErrorCode := ⟨89⟩
def ENODATA : POSIXErrorCode := ⟨96⟩

/-- Whether `POSIXErrorCode(rawValue:)` succeeds: Darwin numbers its codes from 1 to 106, and 102
(`EOPNOTSUPP`) is none of them. -/
def isKnown (code : Int) : Bool := 1 ≤ code ∧ code ≤ 106 ∧ code ≠ 102

/-- `POSIXErrorCode.init(_:)`: an unknown code becomes `EIO`. -/
def ofCode (code : Int) : POSIXErrorCode := if isKnown code then ⟨code⟩ else EIO

end POSIXErrorCode

end NFSKit
