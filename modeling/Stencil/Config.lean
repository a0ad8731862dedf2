import Stencil.Loader

/-! # Configuration — the settings of a parse

    Settings are given as a list in which later ones win and unknown ones are
    ignored.  A session has an active configuration; entering another one keeps
    the active one for the time after. -/

namespace Stencil

/-- The extension of template paths unless another is configured. -/
def defaultExtension : String := ".jade"

/-- The settings of a parse. -/
structure Config where
  /-- Whether a colon separates name and value in attribute lists. -/
  colons : Bool := false
  /-- The extension of templates, which is added to paths without one. -/
  extension : String := defaultExtension
  /-- Where templates come from, if not from files. -/
  loader : Option Loader := none

/-- One setting by name. -/
inductive Setting where
  | colons (value : Bool)
  | extension (value : String)
  | loader (value : Option Loader)
  /-- A setting that the library does not know. -/
  | other (name : String)

namespace Config

/-- The loader in use: without a configured one, files, of which this library sees none. -/
def activeLoader (config : Config) : Loader := config.loader.getD .empty

/-- Applies a setting. -/
def apply (config : Config) : Setting → Config
  | .colons value => { config with colons := value }
  | .extension value => { config with extension := value }
  | .loader value => { config with loader := value }
  | .other _ => config

/-- The configuration that settings describe. -/
def ofSettings (settings : List Setting) : Config := settings.foldl apply {}

end Config

/-- The active configuration, and the ones it stands in for, latest first. -/
structure Session where
  active : Config := {}
  saved : List Config := []

namespace Session

/-- Puts another configuration in the place of the active one. -/
def set (session : Session) (config : Config) : Session := { session with active := config }

/-- Puts the default configuration in the place of the active one. -/
def reset (session : Session) : Session := session.set {}

/-- Makes a configuration active until it is left. -/
def enter (session : Session) (config : Config) : Session :=
  { active := config, saved := session.active :: session.saved }

/-- Goes back to the configuration that was active before the latest entered one. -/
def leave (session : Session) : Session :=
  match session.saved with
  | [] => session
  | config :: saved => { active := config, saved }

end Session

end Stencil
