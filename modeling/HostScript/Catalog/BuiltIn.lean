import HostScript.Catalog

set_option autoImplicit false

namespace HostScript.Catalog

def sessionSpace : Namespace where
  name := "S"
  doc := "Record and session functions of the host application."
  closed := true
  listed := some [
    { name := "LockActualRecord", doc := "Locks the record the script is running on."
      returns := "bool" },
    { name := "UnlockActualRecord", doc := "Releases the lock taken by LockActualRecord." },
    { name := "UpdateActualRecord", doc := "Writes pending field changes of the current record."
      returns := "bool" },
    { name := "RequestSaveAndUnlock"
      doc := "Asks the user to save the record open in a table tab and unlocks it."
      params := [{ name := "tabNr", type := "int" }, { name := "recNr", type := "int" }]
      returns := "bool" },
    { name := "GetField", doc := "Returns the value of a field of the current record."
      params := [{ name := "field", type := "string" }], returns := "string" },
    { name := "SetField", doc := "Sets a field of the current record."
      params := [{ name := "field", type := "string" }, { name := "value", type := "string" }] },
    { name := "MessageBox", doc := "Shows a message to the user and returns the button pressed."
      params := [{ name := "text", type := "string" },
        { name := "caption", type := "string", isOptional := true }]
      returns := "int" }]

def helperSpace : Namespace where
  name := "H"
  doc := "Helper functions for script control."
  closed := true
  listed := some [
    { name := "LockThisScript"
      doc := "Prevents the script from being started twice at the same time." },
    { name := "Format", doc := "Formats values like printf."
      params := [{ name := "format", type := "string" }], variadic := true, returns := "string" },
    { name := "Sleep", doc := "Pauses the script."
      params := [{ name := "milliseconds", type := "int" }] }]

def builtIn : Catalog := ⟨some [sessionSpace, helperSpace], .last⟩

end HostScript.Catalog
