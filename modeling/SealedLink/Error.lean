import SealedLink.Message

/-!
# Errors and their texts

One type of error for each layer, from the wire up to the callers of a channel. Each has one text
for every cause.
-/

namespace SealedLink

/-! ## The wire -/

/-- Why a byte string is no message, or a text no frame. -/
inductive CodecError where
  /-- A part of `expected` bytes was due and only `actual` were left. -/
  | tooShort (expected actual : Nat)
  | invalidTag (tag : UInt8)
  /-- A field or frame of `size` bytes is over its limit. -/
  | fieldTooLarge (size : Nat)
  | trailingBytes (count : Nat)
  deriving DecidableEq, Repr

def hexByte (b : UInt8) : String :=
  String.ofList [Nat.digitChar (b.toNat / 16), Nat.digitChar (b.toNat % 16)]

def CodecError.message : CodecError → String
  | .tooShort expected actual =>
    "message too short: expected at least " ++ toString expected ++ " bytes, got " ++
      toString actual
  | .invalidTag tag => "invalid message tag: 0x" ++ hexByte tag
  | .fieldTooLarge size => "field of " ++ toString size ++ " bytes is too large"
  | .trailingBytes count => toString count ++ " trailing bytes after message"

/-- Why a byte stream failed. The named causes are those that the library tells apart. -/
inductive IoError where
  | unexpectedEof
  | connectionReset
  | connectionAborted
  | brokenPipe
  | notConnected
  | writeZero
  | other (name : String)
  deriving DecidableEq, Repr

def IoError.name : IoError → String
  | .unexpectedEof => "UnexpectedEof"
  | .connectionReset => "ConnectionReset"
  | .connectionAborted => "ConnectionAborted"
  | .brokenPipe => "BrokenPipe"
  | .notConnected => "NotConnected"
  | .writeZero => "WriteZero"
  | .other name => name

/-! ## Cryptography -/

inductive CryptoError where
  | handshakeAlreadyStarted
  | handshakeNotStarted
  | notEstablished
  | sessionUnusable
  | invalidPublicKey
  /-- The handshake carried a payload of `size` bytes, where it must carry none. -/
  | unexpectedPayload (size : Nat)
  | encryptionFailed
  | decryptionFailed
  | counterExhaustion
  | keyDerivationFailed
  deriving DecidableEq, Repr

def CryptoError.message : CryptoError → String
  | .handshakeAlreadyStarted => "handshake already started"
  | .handshakeNotStarted => "handshake not started"
  | .notEstablished => "session not established"
  | .sessionUnusable => "session is unusable after a previous failure"
  | .invalidPublicKey => "invalid peer public key"
  | .unexpectedPayload size => "unexpected handshake payload of " ++ toString size ++ " bytes"
  | .encryptionFailed => "AEAD encryption failed"
  | .decryptionFailed => "AEAD decryption failed (invalid tag or corrupted)"
  | .counterExhaustion => "nonce counter exhausted - session must terminate"
  | .keyDerivationFailed => "key derivation failed"

/-! ## Services -/

inductive ServicePhase where
  | awaitingAttestation
  | awaitingHandshake
  | established
  | closed
  deriving DecidableEq, Repr

def ServicePhase.describe : ServicePhase → String
  | .awaitingAttestation => "awaiting attestation"
  | .awaitingHandshake => "awaiting handshake"
  | .established => "established"
  | .closed => "closed"

inductive Error where
  | crypto (cause : CryptoError)
  | codec (cause : CodecError)
  | config (reason : String)
  | unexpectedMessage (phase : ServicePhase) (kind : MessageKind)
  | io (cause : IoError)
  deriving DecidableEq, Repr

def Error.message : Error → String
  | .crypto cause => "crypto error: " ++ cause.message
  | .codec cause => "frame error: " ++ cause.message
  | .config reason => "configuration error: " ++ reason
  | .unexpectedMessage phase kind =>
    "unexpected " ++ kind.name ++ " message while " ++ phase.describe
  | .io cause => "i/o error: " ++ cause.name

/-! ## Transports and channels -/

inductive TransportError where
  | socketClosed
  /-- The request could not be written down. -/
  | serialization
  /-- The reply could not be read. -/
  | deserialization
  /-- Anything else, a time limit included. -/
  | other
  deriving DecidableEq, Repr

def TransportError.message : TransportError → String
  | .socketClosed => "socket closed"
  | .serialization => "serialization error"
  | .deserialization => "deserialization error"
  | .other => "transport error"

inductive ChannelError where
  /-- No attestation request, refused evidence, or a failed exchange during attestation. -/
  | attestationFailed
  | handshakeFailed
  | encryptionFailed
  | decryptionFailed
  /-- An exchange failed after the channel was established. -/
  | networkError
  /-- The channel had failed for good before. -/
  | genericError
  /-- The channel was torn down first. -/
  | cancelled
  deriving DecidableEq, Repr

def ChannelError.message : ChannelError → String
  | .attestationFailed => "attestation failed"
  | .handshakeFailed => "handshake failed"
  | .encryptionFailed => "encryption failed"
  | .decryptionFailed => "decryption failed"
  | .networkError => "network error"
  | .genericError => "channel failed permanently"
  | .cancelled => "channel shut down"

end SealedLink
