import Wiring.Module.Id

set_option autoImplicit false

namespace Wiring

structure ModuleInfo where
  id : ModuleId
  name : String
  description : Option String
  overrides : List ModuleId
  deriving DecidableEq

def ModuleInfo.describe (m : ModuleInfo) : String :=
  Outline.record "ModuleInfo"
    [("id", m.id.describe), ("name", Text.quoted m.name),
     ("description", Outline.option (m.description.map Text.quoted)),
     ("overrides", Outline.brackets (m.overrides.map ModuleId.describe))]

end Wiring
