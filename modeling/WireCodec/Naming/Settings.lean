/-!
# Settings

Where generated code lives and what it links against.
-/

namespace WireCodec

/-- The settings of a run. -/
structure Settings where
  /-- The front part of packages that module paths leave out. -/
  packageRoot : String := "com.ankamagames."
  /-- The module under which the message modules hang. -/
  messagesRoot : String := "crate"
  /-- The module under which the custom types are found. -/
  typesRoot : String := "crate"
  /-- The crate with the readers, writers and registries that generated code uses. -/
  runtimeCrate : String := "protopack"
  deriving DecidableEq, Repr

end WireCodec
