import IMUParser.Library.Occurrence
import IMUParser.Library.ByteOrder
import IMUParser.Library.Recogniser
import IMUParser.Library.Draining
import IMUParser.Library.Transition
import IMUParser.Library.Liveness
import IMUParser.Codec.Packet
import IMUParser.Codec.Frames
import IMUParser.Codec.FakeData
import IMUParser.Parse.ParseFunctions
import IMUParser.Parse.FirstHeader
import IMUParser.Parse.Accesses
import IMUParser.Parse.Contract
import IMUParser.Parse.RoundTrip
import IMUParser.Receive.ProcessFrames
import IMUParser.Receive.Composition
import IMUParser.Receive.LargeBuffers
import IMUParser.Receive.Recognition
import IMUParser.Receive.Delivery
import IMUParser.Receive.Resync
import IMUParser.Receive.Restarts
import IMUParser.Receive.FrameStream
import IMUParser.Receive.Alignment
import IMUParser.Receive.BoundedLoss
import IMUParser.Receive.Windows
import IMUParser.Receive.Granularity
import IMUParser.Receive.ShortWrites
import IMUParser.System.LoopTester
import IMUParser.System.ParserProcess
import IMUParser.System.MockImu
import IMUParser.System.MockLiveness
import IMUParser.System.DriverChecks
import IMUParser.System.LoopLiveness
import IMUParser.System.LostDatagrams
import IMUParser.System.StalePort
import IMUParser.System.ImuReader
import IMUParser.System.ReaderRuns
import IMUParser.System.ReaderLiveness
