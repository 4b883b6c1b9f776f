import SealedLink.Stream.Frame

/-!
# The configuration of a link

How long an exchange may take and how large a frame may be.
-/

namespace SealedLink

/-- The configuration of a link. Times are in milliseconds. -/
structure LinkConfig where
  responseTimeout : Option Nat := some 30000
  maxFrameSize : Nat := Frame.defaultLimit
  deriving DecidableEq, Repr

/-- The refusal of a frame size of zero. -/
def zeroFrameSize : Error := .config "max_frame_size must be non-zero"

namespace LinkConfig

/-- Refuses a configuration under which no exchange can succeed. -/
def validate (config : LinkConfig) : Except Error Unit :=
  if config.maxFrameSize = 0 then .error zeroFrameSize
  else if config.responseTimeout = some 0 then
    .error (.config "response_timeout must be non-zero")
  else .ok ()

inductive Setting where
  | responseTimeout (duration : Nat)
  | noResponseTimeout
  | maxFrameSize (size : Nat)
  deriving DecidableEq, Repr

def set (config : LinkConfig) : Setting → LinkConfig
  | .responseTimeout duration => { config with responseTimeout := some duration }
  | .noResponseTimeout => { config with responseTimeout := none }
  | .maxFrameSize size => { config with maxFrameSize := size }

/-- The configurations along a list of settings, the first one before any of them. -/
def along (config : LinkConfig) : List Setting → List LinkConfig
  | [] => [config]
  | setting :: rest => config :: (config.set setting).along rest

def setAll (config : LinkConfig) (settings : List Setting) : LinkConfig :=
  settings.foldl set config

end LinkConfig

end SealedLink
