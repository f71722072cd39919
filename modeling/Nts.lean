import Nts.Common.OrderIndexMap
import Nts.Book.PriceLevelsMap
import Nts.Book.OrderBookTotals
import Nts.Book.OrderBookRefusals
import Nts.Itch.Blocks
import Nts.Book.ReplayReads
import Nts.Mold.Packer
import Nts.Mold.DecoderRejects
import Nts.Mold.Stretches
import Nts.Mold.Drops
import Nts.Itch.Grammar
import Nts.Mold.Delivery
import Nts.Book.Events
import Nts.Book.Locates
import Nts.Book.Clean
import Nts.Book.RefSet
import Nts.Book.WireQuantities
import Nts.Apps.FeedHandler
import Nts.Apps.FeedHandlerReplay
import Nts.Apps.Conservation
import Nts.Apps.Replayer
import Nts.Apps.ReplayerRuns
import Nts.Apps.WirePath
import Nts.Book.PriceLevelsChecks
import Nts.Book.OrderBookChecks
import Nts.Book.Window
import Nts.Book.WindowRuns
import Nts.Common.OrderIndexShift
import Nts.Common.OrderIndexLoad
import Nts.Book.OrderBookSound
import Nts.Book.PriceLevelsRebase
import Nts.Mold.Straddling
import Nts.Apps.ReplayerMain
import Nts.Apps.ReplayerMainRuns
import Nts.Apps.Wire
import Nts.Book.Reorder
import Nts.Apps.FeedHandlerMain
import Nts.Book.Files
import Nts.Common.OrderIndexGrowth
import Nts.Apps.Capture
import Nts.Apps.DropLog
import Nts.Apps.FeedHandlerDebug
import Nts.Mold.UdpSender
import Nts.Receive.SocketSetup
import Nts.Lib.Epochs
import Nts.Mold.Sessions
import Nts.Apps.ReplayerCalls
