import ZealBringup.Store.Runs
import ZealBringup.Install.RoundTrip
import ZealBringup.Serial.Receive
import ZealBringup.Editor.Cursor
import ZealBringup.Fdt.Bounds
import ZealBringup.Fdt.Search
import ZealBringup.Boot.Handoff
import ZealBringup.Compiler.Complete
import ZealBringup.Doc.Bytes
import ZealBringup.Usb.Pointer
import ZealBringup.Usb.HidDecode
import ZealBringup.Usb.Forest
import ZealBringup.Fat.Content
import ZealBringup.Fat.Listing
import ZealBringup.Store.Conserve
import ZealBringup.Boot.ElfImage
import ZealBringup.RedSea.Bounds
import ZealBringup.RedSea.Freeze
import ZealBringup.Hc.Heap
import ZealBringup.Hc.Reading
import ZealBringup.Zc.Path
import ZealBringup.Zc.Quote
import ZealBringup.Fb.Line
import ZealBringup.Fb.Scroll
import ZealBringup.Preproc.Expand
import ZealBringup.Hc.Depth
import ZealBringup.Hc.Messages
import ZealBringup.Input.TabletRun
import ZealBringup.Usb.Config
import ZealBringup.Zc.Numeric
import ZealBringup.Zc.Timer
import ZealBringup.Blk.KeepFiles
import ZealBringup.Calc.Correct
import ZealBringup.Pi4.Control
import ZealBringup.Pi4.HidRun
import ZealBringup.Pi4.Layout
import ZealBringup.Pi4.Stall
import ZealBringup.Pi4.Window
import ZealBringup.Usb.Control
import ZealBringup.Win.Exact
import ZealBringup.Pi4.BootSelect
import ZealBringup.Front.Correct
import ZealBringup.Bridge.ClickRun
import ZealBringup.Bridge.ListNumbers
import ZealBringup.Bridge.TaskRun
import ZealBringup.Input.Keyboard
import ZealBringup.Terminal.ReadLine
import ZealBringup.Heap.Runs
