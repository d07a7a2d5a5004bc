import HostScript.Json.Field

set_option autoImplicit false

namespace HostScript

mutual

/-- What a value must look like. Null fits everywhere. -/
inductive Shape where
  | anything
  | text
  | flag
  | whole
  | count
  | either (a b : Shape)
  | list (item : Shape)
  | record (layout : Layout)

inductive Layout where
  | done
  | field (name : String) (shape : Shape) (rest : Layout)

end

namespace Shape

def ofFields (fields : List (String × Shape)) : Shape :=
  .record (fields.foldr (fun (name, shape) rest => .field name shape rest) .done)

def flags (names : List String) : Shape := ofFields (names.map (·, .flag))

end Shape

mutual

def Shape.fits : Shape → Json → Bool
  | _, .null => true
  | .anything, _ => true
  | .text, .string _ => true
  | .flag, .bool _ => true
  | .whole, j => (Field.int32 [j]).isSome
  | .count, j => (Field.unsigned [j]).isSome
  | .either a b, j => a.fits j || b.fits j
  | .list item, .array values => values.all item.fits
  | .record layout, .object fields => layout.fits fields
  | _, _ => false

def Layout.fits : Layout → List (String × Json) → Bool
  | .done, _ => true
  | .field name shape rest, fields =>
    (fields.all fun f => !Field.names f.1 name || shape.fits f.2) && rest.fits fields

end

def Field.shaped (shape : Shape) : FieldReader Unit := fun js =>
  if js.all shape.fits then some () else none

end HostScript
